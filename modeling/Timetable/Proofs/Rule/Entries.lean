import Timetable.Proofs.Rule.Entering
import Timetable.Proofs.Rule.Validity
import Timetable.Proofs.Text.Numerals

/-!
# Entering values in any form

`Draft.IsGivenBy` says for each key in which texts a value of a draft may be written: numbers
with zeros or a plus in front, names in any case of letters, blanks around the items of a list.
A value is entered if and only if it is such a text, and then the draft has what it says
(`enter_eq_ok_iff_isGivenBy`).

Entries of different keys do not disturb each other, so entering a list of them gives the draft
that has what every entry says and is otherwise unchanged: `enterAll_eq_ok_iff`.  Such a
draft can be built into a rule: `exists_build_of_isWrittenAs`.
-/

namespace Timetable

open Civil
open Text (IsUnsigned IsSigned unsigned? signed? trim items upper)

/-! ## Rules for values -/

/-- Whether a text shows a list of numbers of a range. -/
def ValueRange.ShowsList (range : ValueRange) (ns : List Int) (cs : List Char) : Prop :=
  List.Forall₂ (fun item n => IsSigned n (trim item) ∧ range.contains n = true) (items cs) ns

/-- Whether a text shows a weekday with an ordinal in front or without one. -/
inductive ShowsSelector (frequency : Frequency) : WeekdaySelector → List Char → Prop
  | every {d : Weekday} {cs : List Char} (hday : d.token.toList = upper cs) :
      ShowsSelector frequency ⟨d, none⟩ cs
  | nth {d : Weekday} {n : Int} {cs ds : List Char} (hday : d.token.toList = upper ds)
      (hnumber : IsSigned n cs) (hrange : ValueRange.ordinal.contains n = true)
      (hfrequency : frequency.allowsOrdinals = true) :
      ShowsSelector frequency ⟨d, some n⟩ (cs ++ ds)

/-- Whether a text shows what a draft has for a key. -/
def Draft.IsGivenBy (d : Draft) (cs : List Char) : Key → Prop
  | .frequency => d.frequency.token.toList = upper cs
  | .interval => IsUnsigned d.interval cs ∧ 1 ≤ d.interval ∧ d.interval < Nat.pow 2 32
  | .count => ∃ n, d.count = some n ∧ IsUnsigned n cs ∧ n < Nat.pow 2 32
  | .deadline => ∃ t, d.deadline = some t ∧ DateTime.ofStamp? cs = some t
  | .weekStart => d.weekStart.token.toList = upper cs
  | .months => ValueRange.month.ShowsList (d.months.map fun m => (m.number : Int)) cs
  | .yearDays => d.frequency = .yearly ∧ ValueRange.yearDay.ShowsList d.yearDays cs
  | .monthDays => d.frequency ≠ .weekly ∧ ValueRange.monthDay.ShowsList d.monthDays cs
  | .weekdays =>
      List.Forall₂ (fun item s => ShowsSelector d.frequency s (trim item)) (items cs) d.weekdays
  | .hours => ValueRange.hour.ShowsList (d.hours.map Int.ofNat) cs
  | .minutes => ValueRange.minute.ShowsList (d.minutes.map Int.ofNat) cs
  | .seconds => ValueRange.second.ShowsList (d.seconds.map Int.ofNat) cs
  | .setPositions => ValueRange.setPosition.ShowsList d.setPositions cs

/-- Whether a text shows something for a key of a rule with a frequency. -/
def Key.Accepts (frequency : Frequency) (cs : List Char) (key : Key) : Prop :=
  ∃ d : Draft, d.frequency = frequency ∧ d.IsGivenBy cs key

/-! ## Reading values -/

variable {cs : List Char}

theorem ofFrequencyToken?_eq_some_iff {f : Frequency} :
    Frequency.ofToken? cs = some f ↔ f.token.toList = upper cs := by
  apply Lists.find?_beq_eq_some_iff
  intro f
  cases f <;> rfl

theorem ofWeekdayToken?_eq_some_iff {d : Weekday} :
    Weekday.ofToken? cs = some d ↔ d.token.toList = upper cs := by
  apply Lists.find?_beq_eq_some_iff
  intro d
  cases d <;> rfl

theorem Key.readWeekday_eq_ok_iff {key : Key} {d : Weekday} :
    key.readWeekday cs = .ok d ↔ d.token.toList = upper cs := by
  rw [← ofWeekdayToken?_eq_some_iff, Key.readWeekday]
  split
  next hd => rw [hd, Except.ok.injEq, Option.some.injEq]
  next hd => simp [hd]

namespace ValueRange

variable {range : ValueRange} {ns : List Int}

theorem bounds_of_contains {n : Int} (h : range.contains n = true) :
    range.least ≤ n ∧ n ≤ range.greatest := by
  simp only [contains, Bool.and_eq_true, decide_eq_true_eq] at h
  exact h.1

theorem signed?_of_isSigned (hrange : range.IsNarrow) {n : Int} (hnumber : IsSigned n cs)
    (hcontains : range.contains n = true) : signed? 32 cs = some n := by
  obtain ⟨hleast, hgreatest⟩ := bounds_of_contains hcontains
  exact Text.signed?_eq_some_iff.mpr ⟨hnumber, Int.le_trans hrange.1 hleast,
    Int.lt_of_le_of_lt hgreatest hrange.2⟩

/-- A list is read if and only if it shows numbers of the range. -/
theorem readList_eq_ok_iff_showsList (hrange : range.IsNarrow) :
    range.readList cs = .ok ns ↔ range.ShowsList ns cs := by
  rw [readList]
  apply mapM_eq_ok_iff_of_iff
  intro item n
  dsimp only
  constructor
  · intro h
    split at h
    next => simp at h
    next m hm =>
      by_cases hcontains : range.contains m = true
      · rw [if_pos hcontains] at h
        obtain rfl := Except.ok.inj h
        exact ⟨(Text.signed?_eq_some_iff.mp hm).1, hcontains⟩
      · simp [hcontains] at h
  · intro h
    obtain ⟨hsigned, hcontains⟩ := h
    rw [signed?_of_isSigned hrange hsigned hcontains]
    dsimp only
    rw [if_pos hcontains]

theorem ShowsList.contains (h : range.ShowsList ns cs) : ∀ n ∈ ns, range.contains n = true := by
  intro n hn
  obtain ⟨item, -, hitem⟩ := exists_of_forall₂ h hn
  exact hitem.2

/-- Numbers that stand for members of a type are read as these members. -/
theorem exists_showsList_iff {α : Type} {P : List α → Prop} {read : List Int → List α}
    {write : α → Int} (hread : ∀ ns, (∀ n ∈ ns, range.contains n = true) →
      (read ns).map write = ns) (hwrite : ∀ as, read (as.map write) = as) :
    (∃ ns, range.ShowsList ns cs ∧ P (read ns)) ↔
      ∃ as, range.ShowsList (as.map write) cs ∧ P as := by
  constructor
  · intro h
    obtain ⟨ns, hns, hP⟩ := h
    refine ⟨read ns, ?_, hP⟩
    rwa [hread ns hns.contains]
  · intro h
    obtain ⟨as, has, hP⟩ := h
    refine ⟨as.map write, has, ?_⟩
    rwa [hwrite]

theorem map_readList_eq_ok_iff_exists (hrange : range.IsNarrow) {α : Type} {f : List Int → α}
    {b : α} : (range.readList cs).map f = .ok b ↔ ∃ ns, range.ShowsList ns cs ∧ f ns = b := by
  rw [map_eq_ok_iff]
  simp only [readList_eq_ok_iff_showsList hrange]

end ValueRange

/-! ## Weekdays -/

/-- The name of a weekday has two letters, so it has nothing but ASCII. -/
theorem length_and_isAscii_of_token {d : Weekday} (h : d.token.toList = upper cs) :
    cs.length = 2 ∧ Text.isAscii cs = true := by
  constructor
  · rw [← Text.length_upper, ← h]
    exact WeekdaySelector.length_token d
  · rw [Text.isAscii, List.all_eq_true]
    intro c hc
    have hmem : c.toUpper ∈ d.token.toList := h.symm ▸ List.mem_map_of_mem hc
    have hvisible := Text.isVisible_of_isPlainChar (d.isPlain_token.2 _ hmem)
    simp only [Text.isVisible, Bool.and_eq_true, decide_eq_true_eq] at hvisible
    rw [decide_eq_true_eq]
    -- A letter that has a capital is one of ASCII already.
    by_cases hlower : 'a'.val ≤ c.val ∧ c.val ≤ 'z'.val
    · have hle : c.toNat ≤ 122 := UInt32.le_iff_toNat_le.mp hlower.2
      omega
    · unfold Char.toUpper at hvisible
      rw [dif_neg hlower] at hvisible
      omega

theorem isAscii_of_isSigned {n : Int} (h : IsSigned n cs) : Text.isAscii cs = true := by
  rw [Text.isAscii, List.all_eq_true]
  intro c hc
  rcases h.isDigit_or_eq hc with hdigit | rfl | rfl
  · have hbounds : 48 ≤ c.toNat ∧ c.toNat ≤ 57 := Char.isDigit_iff_toNat.mp hdigit
    rw [decide_eq_true_eq]
    omega
  · decide
  · decide

namespace WeekdaySelector

variable {frequency : Frequency} {s : WeekdaySelector}

theorem showsSelector_of_read (h : read frequency cs = .ok s) : ShowsSelector frequency s cs := by
  unfold read at h
  dsimp only at h
  split at h
  next => simp at h
  next =>
    obtain ⟨d, hday, h⟩ := bind_eq_ok_iff.mp h
    have hday := Key.readWeekday_eq_ok_iff.mp hday
    split at h
    next hempty =>
      obtain rfl := pure_eq_ok_iff.mp h
      have hall : cs.drop (cs.length - 2) = cs := by
        have hparts := List.take_append_drop (cs.length - 2) cs
        rwa [List.isEmpty_iff.mp hempty, List.nil_append] at hparts
      rw [hall] at hday
      exact .every hday
    next =>
      split at h
      next => simp at h
      next n hn =>
        split at h
        next => simp at h
        next hrange =>
          split at h
          next => simp at h
          next hfrequency =>
            obtain rfl := pure_eq_ok_iff.mp h
            have hparts := List.take_append_drop (cs.length - 2) cs
            rw [← hparts]
            exact .nth hday (Text.signed?_eq_some_iff.mp hn).1 (by simpa using hrange)
              (by simpa using hfrequency)

/-- A weekday is read if and only if the text shows it. -/
theorem read_eq_ok_iff_showsSelector :
    read frequency cs = .ok s ↔ ShowsSelector frequency s cs := by
  refine ⟨showsSelector_of_read, fun h => ?_⟩
  cases h with
  | every hday =>
      obtain ⟨hlength, hascii⟩ := length_and_isAscii_of_token hday
      have hguard : ¬ (cs.length < 2 || !Text.isAscii cs) = true := by
        simp [hlength, hascii]
      rw [read]
      dsimp only
      rw [if_neg hguard, hlength]
      exact bind_eq_ok_iff.mpr ⟨_, Key.readWeekday_eq_ok_iff.mpr hday, rfl⟩
  | @nth d n front day hday hnumber hrange hfrequency =>
      obtain ⟨hlength, hascii⟩ := length_and_isAscii_of_token hday
      have hguard : ¬ ((front ++ day).length < 2 || !Text.isAscii (front ++ day)) = true := by
        have hfront := isAscii_of_isSigned hnumber
        rw [Text.isAscii] at hfront hascii
        simp [hlength, Text.isAscii, List.all_append, hfront, hascii]
      have htwo : (front ++ day).length - 2 = front.length := by
        rw [List.length_append, hlength, Nat.add_sub_cancel]
      rw [read]
      dsimp only
      rw [if_neg hguard, htwo, List.take_left, List.drop_left]
      refine bind_eq_ok_iff.mpr ⟨_, Key.readWeekday_eq_ok_iff.mpr hday, ?_⟩
      rw [if_neg (by simpa using hnumber.ne_nil),
        ValueRange.signed?_of_isSigned (by decide) hnumber hrange]
      dsimp only
      rw [if_neg (by simp [hrange]), if_neg (by simp [hfrequency])]
      rfl

theorem isAdmitted_of_showsSelector (h : ShowsSelector frequency s cs) :
    s.IsAdmitted frequency := by
  cases h with
  | every _ => simp [IsAdmitted]
  | nth _ _ hrange hfrequency => simp [IsAdmitted, hrange, hfrequency]

end WeekdaySelector

namespace Draft

/-! ## One entry -/

variable {d e acc acc' : Draft} {key key' : Key}

/-- Entering a value is setting what the draft has for a key. -/
theorem exists_set_eq_iff {α : Type} {P : α → Prop} (get : Draft → α) {set : α → Draft}
    (h : ∀ a, get (set a) = a) :
    (∃ a, P a ∧ set a = acc') ↔ P (get acc') ∧ set (get acc') = acc' := by
  constructor
  · intro hset
    obtain ⟨a, ha, rfl⟩ := hset
    rw [h]
    exact ⟨ha, rfl⟩
  · intro hget
    exact ⟨get acc', hget.1, hget.2⟩

private theorem enter_interval_eq_ok_iff :
    acc.enter .interval cs = .ok acc' ↔
      ∃ n, (IsUnsigned n cs ∧ 1 ≤ n ∧ n < Nat.pow 2 32) ∧ { acc with interval := n } = acc' := by
  rw [enter]
  constructor
  · intro h
    split at h
    next => simp at h
    next => simp at h
    next n hzero hn =>
      obtain ⟨hnumber, hlt⟩ := Text.unsigned?_eq_some_iff.mp hn
      have hne : n ≠ 0 := fun hn => hzero (hn ▸ rfl)
      exact ⟨n, ⟨hnumber, by omega, hlt⟩, Except.ok.inj h⟩
  · intro h
    obtain ⟨n, ⟨hnumber, hpos, hlt⟩, rfl⟩ := h
    rw [Text.unsigned?_eq_some_iff.mpr ⟨hnumber, hlt⟩]
    split
    next hnone => simp at hnone
    next hzero =>
      rw [Option.some.injEq] at hzero
      omega
    next m _ hm => rw [Option.some.inj hm]

private theorem enter_count_eq_ok_iff :
    acc.enter .count cs = .ok acc' ↔
      ∃ count : Option Nat, (∃ n, count = some n ∧ IsUnsigned n cs ∧ n < Nat.pow 2 32) ∧
        { acc with count := count } = acc' := by
  rw [enter]
  constructor
  · intro h
    split at h
    next => simp at h
    next n hn =>
      exact ⟨some n, ⟨n, rfl, Text.unsigned?_eq_some_iff.mp hn⟩, Except.ok.inj h⟩
  · intro h
    obtain ⟨_, ⟨n, rfl, hn⟩, rfl⟩ := h
    rw [Text.unsigned?_eq_some_iff.mpr hn]

private theorem enter_deadline_eq_ok_iff :
    acc.enter .deadline cs = .ok acc' ↔
      ∃ deadline, (∃ t, deadline = some t ∧ DateTime.ofStamp? cs = some t) ∧
        { acc with deadline := deadline } = acc' := by
  have hset {t : DateTime} (ht : DateTime.ofStamp? cs = some t) :
      acc.withDeadline t = { acc with deadline := some t } := by
    obtain ⟨hwhole, -⟩ := DateTime.wholeSecond_and_year_nonneg_of_ofStamp? ht
    have htruncate : t.truncate = t := by
      obtain ⟨date, second, nanosecond, _, _⟩ := t
      obtain rfl : nanosecond = 0 := hwhole
      rfl
    rw [withDeadline, htruncate]
  rw [enter]
  constructor
  · intro h
    split at h
    next => simp at h
    next t ht =>
      rw [hset ht] at h
      exact ⟨some t, ⟨t, rfl, ht⟩, Except.ok.inj h⟩
  · intro h
    obtain ⟨_, ⟨t, rfl, ht⟩, rfl⟩ := h
    rw [ht]
    dsimp only
    rw [hset ht]

private theorem enter_months_eq_ok_iff :
    acc.enter .months cs = .ok acc' ↔
      ∃ months : List Month, ValueRange.month.ShowsList (months.map fun m => (m.number : Int)) cs ∧
        { acc with months := months } = acc' := by
  rw [enter, ValueRange.map_readList_eq_ok_iff_exists (by decide)]
  apply ValueRange.exists_showsList_iff (P := fun months => { acc with months } = acc')
  · intro ns hns
    induction ns with
    | nil => rfl
    | cons n ns ih =>
        obtain ⟨hn, hns⟩ := List.forall_mem_cons.mp hns
        obtain ⟨hleast, hgreatest⟩ : 1 ≤ n ∧ n ≤ 12 := ValueRange.bounds_of_contains hn
        obtain ⟨m, hm⟩ : ∃ m, Month.ofNumber? n.toNat = some m :=
          ⟨_, if_pos ⟨by omega, by omega⟩⟩
        have hnumber : (m.number : Int) = n := by
          rw [Month.ofNumber?_eq_some_iff.mp hm]
          omega
        simp only [List.filterMap_cons, hm, List.map_cons, ih hns, hnumber]
  · intro months
    simp [List.filterMap_map]

/-- Hours, minutes and seconds are never negative. -/
private theorem enter_times_eq_ok_iff {range : ValueRange} (hrange : range.IsNarrow)
    (hleast : 0 ≤ range.least) (set : List Nat → Draft) :
    (range.readList cs).map (fun ns => set (ns.map Int.toNat)) = .ok acc' ↔
      ∃ ks : List Nat, range.ShowsList (ks.map Int.ofNat) cs ∧ set ks = acc' := by
  rw [ValueRange.map_readList_eq_ok_iff_exists hrange]
  apply ValueRange.exists_showsList_iff (P := fun ks => set ks = acc')
  · intro ns hns
    rw [List.map_map]
    apply (List.map_congr_left fun n hn => ?_).trans (List.map_id ns)
    have hbounds := ValueRange.bounds_of_contains (hns n hn)
    exact Int.toNat_of_nonneg (by omega)
  · intro ks
    simp [Function.comp_def]

private theorem frequency_eq_of_copy (hkey : key ≠ .frequency) (h : acc'.copy acc key = acc') :
    acc'.frequency = acc.frequency := by
  rw [← h]
  cases key <;> first | rfl | exact absurd rfl hkey

/-- A list that only some frequencies have a use for is read if the frequency is one of them. -/
private theorem enter_limited_eq_ok_iff (range : ValueRange) (hrange : range.IsNarrow)
    (allowed : Frequency → Prop) [DecidablePred allowed] (get : Draft → List Int)
    {set : List Int → Draft} (hget : ∀ ns, get (set ns) = ns)
    (hset : set (get acc') = acc' → acc'.frequency = acc.frequency) {fault : Rule.Fault} :
    (if allowed acc.frequency then (range.readList cs).map set else .error fault) = .ok acc' ↔
      (allowed acc'.frequency ∧ range.ShowsList (get acc') cs) ∧ set (get acc') = acc' := by
  have hlist : (range.readList cs).map set = .ok acc' ↔
      range.ShowsList (get acc') cs ∧ set (get acc') = acc' :=
    (ValueRange.map_readList_eq_ok_iff_exists hrange).trans (exists_set_eq_iff get hget)
  by_cases hallowed : allowed acc.frequency
  · rw [if_pos hallowed, hlist]
    constructor
    · intro h
      exact ⟨⟨(hset h.2).symm ▸ hallowed, h.1⟩, h.2⟩
    · intro h
      exact ⟨h.1.2, h.2⟩
  · rw [if_neg hallowed]
    refine iff_of_false (by simp) fun h => hallowed ?_
    rw [← hset h.2]
    exact h.1.1

/-- A value is entered if and only if it is in one of the forms for its key, and then the draft
has the value. -/
theorem enter_eq_ok_iff_isGivenBy
    (hfrequency : key = .frequency → acc.frequency.token.toList = upper cs) :
    acc.enter key cs = .ok acc' ↔ acc'.IsGivenBy cs key ∧ acc'.copy acc key = acc' := by
  cases key with
  | frequency =>
      rw [enter, Except.ok.injEq]
      constructor
      · intro h
        subst h
        exact ⟨hfrequency rfl, rfl⟩
      · intro h
        -- The token names one frequency, so the draft that is given keeps the one it had.
        obtain ⟨hgiven, hcopy⟩ := h
        have hgiven := ofFrequencyToken?_eq_some_iff.mpr hgiven
        rw [ofFrequencyToken?_eq_some_iff.mpr (hfrequency rfl), Option.some.injEq] at hgiven
        rw [← hcopy, copy, ← hgiven]
  | interval => exact enter_interval_eq_ok_iff.trans (exists_set_eq_iff Draft.interval fun _ => rfl)
  | count => exact enter_count_eq_ok_iff.trans (exists_set_eq_iff Draft.count fun _ => rfl)
  | deadline => exact enter_deadline_eq_ok_iff.trans (exists_set_eq_iff Draft.deadline fun _ => rfl)
  | weekStart =>
      rw [enter, map_eq_ok_iff]
      simp only [Key.readWeekday_eq_ok_iff]
      exact exists_set_eq_iff Draft.weekStart fun _ => rfl
  | months => exact enter_months_eq_ok_iff.trans (exists_set_eq_iff Draft.months fun _ => rfl)
  | yearDays =>
      rw [enter]
      exact enter_limited_eq_ok_iff .yearDay (by decide) (· = .yearly) Draft.yearDays
        (fun _ => rfl) (frequency_eq_of_copy (by decide : Key.yearDays ≠ .frequency))
  | monthDays =>
      rw [enter]
      exact enter_limited_eq_ok_iff .monthDay (by decide) (· ≠ .weekly) Draft.monthDays
        (fun _ => rfl) (frequency_eq_of_copy (by decide : Key.monthDays ≠ .frequency))
  | weekdays =>
      have hread {ss : List WeekdaySelector} :
          WeekdaySelector.readList acc.frequency cs = .ok ss ↔ List.Forall₂
            (fun item s => ShowsSelector acc.frequency s (trim item)) (items cs) ss :=
        mapM_eq_ok_iff_of_iff fun _ _ => WeekdaySelector.read_eq_ok_iff_showsSelector
      rw [enter, map_eq_ok_iff]
      simp only [hread]
      apply (exists_set_eq_iff Draft.weekdays fun _ => rfl).trans
      -- Whether ordinals are allowed is asked of the frequency, which the copy does not change.
      apply and_congr_left
      intro hcopy
      rw [IsGivenBy, frequency_eq_of_copy (by decide : Key.weekdays ≠ .frequency) hcopy]
  | hours =>
      rw [enter]
      exact (enter_times_eq_ok_iff (by decide) (by decide) fun hours =>
        { acc with hours := hours }).trans (exists_set_eq_iff Draft.hours fun _ => rfl)
  | minutes =>
      rw [enter]
      exact (enter_times_eq_ok_iff (by decide) (by decide) fun minutes =>
        { acc with minutes := minutes }).trans (exists_set_eq_iff Draft.minutes fun _ => rfl)
  | seconds =>
      rw [enter]
      exact (enter_times_eq_ok_iff (by decide) (by decide) fun seconds =>
        { acc with seconds := seconds }).trans (exists_set_eq_iff Draft.seconds fun _ => rfl)
  | setPositions =>
      rw [enter, ValueRange.map_readList_eq_ok_iff_exists (by decide)]
      exact exists_set_eq_iff Draft.setPositions fun _ => rfl

/-! ## Values that entries leave alone -/

/-- The later of two values for a key counts. -/
theorem copy_copy_same (d e acc : Draft) (key : Key) :
    d.copy (e.copy acc key) key = d.copy acc key := by
  cases key <;> rfl

theorem copy_of_copy (d acc : Draft) (key : Key) :
    (d.copy acc key).copy acc key = d.copy acc key := by
  cases key <;> rfl

theorem copy_self (d : Draft) (key : Key) : d.copy d key = d := by
  cases key <;> rfl

theorem copy_comm_of_ne (d e acc : Draft) (h : key ≠ key') :
    d.copy (e.copy acc key) key' = e.copy (d.copy acc key') key := by
  cases key <;> cases key' <;> first | rfl | exact absurd rfl h

/-- A value for one key does not decide whether another key keeps its value. -/
theorem copy_eq_iff_of_ne (h : key ≠ key') :
    d.copy (e.copy acc key) key' = e.copy acc key ↔ d.copy acc key' = acc := by
  constructor
  · intro hcopy
    have hback : acc.copy (e.copy acc key) key = acc := by
      rw [copy_copy_same, copy_self]
    calc d.copy acc key'
      _ = d.copy (acc.copy (e.copy acc key) key) key' := by rw [hback]
      _ = acc.copy (d.copy (e.copy acc key) key') key := copy_comm_of_ne _ _ _ h
      _ = acc := by rw [hcopy, hback]
  · intro hcopy
    rw [copy_comm_of_ne _ _ _ h, hcopy]

/-- Drafts with the same values are the same. -/
theorem eq_of_copy_eq (h : ∀ key, d.copy acc key = acc) : d = acc := by
  rw [← foldl_copy_all d acc]
  exact List.foldl_fixed' h Key.all

/-- A text says the same of drafts with the same frequency and the same value for the key. -/
theorem isGivenBy_congr (hfrequency : d.frequency = e.frequency) (h : e.copy d key = d) :
    d.IsGivenBy cs key ↔ e.IsGivenBy cs key := by
  rw [← h]
  cases key <;> simp [copy, IsGivenBy, hfrequency]

theorem frequency_eq_of_isGivenBy
    (hfrequency : key = .frequency → acc.frequency.token.toList = upper cs)
    (hgiven : acc'.IsGivenBy cs key) (hcopy : acc'.copy acc key = acc') :
    acc'.frequency = acc.frequency := by
  by_cases hkey : key = .frequency
  · subst hkey
    have hgiven := ofFrequencyToken?_eq_some_iff.mpr hgiven
    rw [ofFrequencyToken?_eq_some_iff.mpr (hfrequency rfl), Option.some.injEq] at hgiven
    exact hgiven.symm
  · exact frequency_eq_of_copy hkey hcopy

/-! ## All entries -/

variable {entries : List (Key × List Char)}

/-- The keys of entries. -/
def entryKeys (entries : List (Key × List Char)) : List Key :=
  entries.map Prod.fst

/-- Enter the values of a list of entries. -/
def enterAll (acc : Draft) (entries : List (Key × List Char)) : Except Rule.Fault Draft :=
  entries.foldlM (fun acc entry => acc.enter entry.1 entry.2) acc

/-- Entering a list gives the draft that has what every entry says, with what it had before for
the other keys. -/
theorem enterAll_eq_ok_iff (hnodup : (entryKeys entries).Nodup)
    (hfrequency : ∀ cs, (.frequency, cs) ∈ entries → acc.frequency.token.toList = upper cs) :
    acc.enterAll entries = .ok acc' ↔
      acc'.frequency = acc.frequency ∧ (∀ entry ∈ entries, acc'.IsGivenBy entry.2 entry.1) ∧
        ∀ key ∉ entryKeys entries, acc'.copy acc key = acc := by
  induction entries generalizing acc with
  | nil =>
      rw [enterAll, List.foldlM_nil, pure_eq_ok_iff]
      constructor
      · intro h
        subst h
        exact ⟨rfl, by simp, fun key _ => acc.copy_self key⟩
      · intro h
        exact (eq_of_copy_eq fun key => h.2.2 key (by simp [entryKeys])).symm
  | cons entry rest ih =>
      obtain ⟨key, cs⟩ := entry
      obtain ⟨hkey, hnodup⟩ := List.nodup_cons.mp hnodup
      have hhead : key = .frequency → acc.frequency.token.toList = upper cs := by
        intro h
        exact hfrequency cs (by simp [h])
      have htail {mid : Draft} (hmid : mid.frequency = acc.frequency) :=
        @ih mid hnodup fun cs hcs => hmid ▸ hfrequency cs (List.mem_cons_of_mem _ hcs)
      have hcons : acc.enterAll ((key, cs) :: rest) =
          acc.enter key cs >>= fun mid => mid.enterAll rest := List.foldlM_cons
      rw [hcons, bind_eq_ok_iff]
      simp only [enter_eq_ok_iff_isGivenBy hhead, List.forall_mem_cons]
      constructor
      · intro h
        obtain ⟨mid, ⟨hgiven, hcopy⟩, hrest⟩ := h
        have hmid := frequency_eq_of_isGivenBy hhead hgiven hcopy
        obtain ⟨hsame, hgivens, hothers⟩ := (htail hmid).mp hrest
        refine ⟨hsame.trans hmid, ⟨?_, hgivens⟩, ?_⟩
        -- No later entry has this key, so what it was given is still there in the end.
        · exact (isGivenBy_congr hsame.symm (hothers key hkey)).mp hgiven
        · intro key' hkey'
          obtain ⟨hne, hrest⟩ : key' ≠ key ∧ key' ∉ entryKeys rest := by
            simpa [entryKeys] using hkey'
          rw [← copy_eq_iff_of_ne hne.symm, hcopy]
          exact hothers key' hrest
      · intro h
        obtain ⟨hsame, ⟨hgiven, hgivens⟩, hothers⟩ := h
        have hmid : (acc'.copy acc key).frequency = acc'.frequency := frequency_copy hsame.symm key
        have hrest := htail (hmid.trans hsame)
        -- Between the head and the rest stands the old draft with this one key of the new one.
        refine ⟨acc'.copy acc key, ⟨?_, ?_⟩, hrest.mpr ⟨hmid.symm, hgivens, ?_⟩⟩
        · exact (isGivenBy_congr hmid (copy_copy_same _ _ _ _)).mpr hgiven
        · exact copy_of_copy acc' acc key
        · intro key' hkey'
          by_cases hne : key = key'
          · rw [hne, copy_copy_same]
          · rw [copy_eq_iff_of_ne hne]
            exact hothers key' (by simpa [entryKeys, Ne.symm hne] using hkey')

/-- What a list of entries gives can be entered if and only if each of them is accepted. -/
theorem exists_enterAll_iff
    (hfrequency : ∀ cs, (.frequency, cs) ∈ entries → acc.frequency.token.toList = upper cs) :
    (∃ acc', acc.enterAll entries = .ok acc') ↔
      ∀ entry ∈ entries, entry.1.Accepts acc.frequency entry.2 := by
  induction entries generalizing acc with
  | nil => exact iff_of_true ⟨acc, rfl⟩ (by simp)
  | cons entry rest ih =>
      obtain ⟨key, cs⟩ := entry
      have hhead : key = .frequency → acc.frequency.token.toList = upper cs := by
        intro h
        exact hfrequency cs (by simp [h])
      have htail {mid : Draft} (hmid : mid.frequency = acc.frequency) :=
        @ih mid fun cs hcs => hmid ▸ hfrequency cs (List.mem_cons_of_mem _ hcs)
      have hcons : acc.enterAll ((key, cs) :: rest) =
          acc.enter key cs >>= fun mid => mid.enterAll rest := List.foldlM_cons
      simp only [hcons, bind_eq_ok_iff, enter_eq_ok_iff_isGivenBy hhead, List.forall_mem_cons]
      constructor
      · intro h
        obtain ⟨acc', mid, ⟨hgiven, hcopy⟩, hrest⟩ := h
        have hmid := frequency_eq_of_isGivenBy hhead hgiven hcopy
        refine ⟨⟨mid, hmid, hgiven⟩, ?_⟩
        rw [← hmid]
        exact (htail hmid).mp ⟨acc', hrest⟩
      · intro h
        obtain ⟨⟨d, hd, hgiven⟩, hrest⟩ := h
        -- The accepting draft may differ elsewhere; only its key is copied into the one at hand.
        have hmid : (d.copy acc key).frequency = acc.frequency :=
          (frequency_copy hd.symm key).trans hd
        obtain ⟨acc', hacc'⟩ := (htail hmid).mpr (hmid.symm ▸ hrest)
        have hsame := copy_copy_same d d acc key
        refine ⟨acc', _, ⟨?_, copy_of_copy d acc key⟩, hacc'⟩
        exact (isGivenBy_congr (hmid.trans hd.symm) hsame).mpr hgiven

/-! ## Building what was entered -/

/-- Whether the keys of entries fit each other: each at most once, the frequency among them,
and not both endings. -/
structure KeysFit (entries : List (Key × List Char)) : Prop where
  nodup : (entryKeys entries).Nodup
  frequency_mem : Key.frequency ∈ entryKeys entries
  endings : ¬ (Key.count ∈ entryKeys entries ∧ Key.deadline ∈ entryKeys entries)

/-- Whether a draft is what a list of entries says.  What no entry says is what a reader
assumes. -/
structure IsWrittenAs (d : Draft) (entries : List (Key × List Char)) : Prop
    extends KeysFit entries where
  given : ∀ entry ∈ entries, d.IsGivenBy entry.2 entry.1
  others : ∀ key ∉ entryKeys entries,
    d.copy (ofFrequency d.frequency) key = ofFrequency d.frequency

/-- A value is written in some text, or it is the one that a reader assumes. -/
theorem IsWrittenAs.given_or (h : d.IsWrittenAs entries) (key : Key) :
    (∃ cs, d.IsGivenBy cs key) ∨
      d.copy (ofFrequency d.frequency) key = ofFrequency d.frequency := by
  by_cases hkey : key ∈ entryKeys entries
  · obtain ⟨⟨_, cs⟩, hentry, rfl⟩ := List.mem_map.mp hkey
    exact .inl ⟨cs, h.given _ hentry⟩
  · exact .inr (h.others key hkey)

theorem IsWrittenAs.count_or_deadline_eq_none (h : d.IsWrittenAs entries) :
    d.count = none ∨ d.deadline = none := by
  by_cases hcount : Key.count ∈ entryKeys entries
  · have hdeadline := h.others .deadline fun hmem => h.endings ⟨hcount, hmem⟩
    exact .inr (congrArg Draft.deadline hdeadline)
  · exact .inl (congrArg Draft.count (h.others .count hcount))

theorem IsWrittenAs.isAdmitted (h : d.IsWrittenAs entries) {s : WeekdaySelector}
    (hs : s ∈ d.weekdays) : s.IsAdmitted d.frequency := by
  rcases h.given_or .weekdays with hgiven | hdefault
  · obtain ⟨cs, hgiven⟩ := hgiven
    obtain ⟨item, -, hitem⟩ := exists_of_forall₂ hgiven hs
    exact WeekdaySelector.isAdmitted_of_showsSelector hitem
  · have hempty : d.weekdays = [] := congrArg Draft.weekdays hdefault
    simp [hempty] at hs

/-- What entries say passes all the checks of a draft. -/
theorem check_of_isWrittenAs (h : d.IsWrittenAs entries) : d.check = .ok () := by
  have hnumbers {range : ValueRange} {ns : List Int}
      (hgiven : (∃ cs, range.ShowsList ns cs) ∨ ns = []) : ∀ n ∈ ns, range.contains n = true := by
    rcases hgiven with hlist | hempty
    · obtain ⟨cs, hlist⟩ := hlist
      exact hlist.contains
    · simp [hempty]
  have htimes {range : ValueRange} {ns : List Nat}
      (hgiven : (∃ cs, range.ShowsList (ns.map Int.ofNat) cs) ∨ ns = []) :
      ∀ n ∈ ns.map Int.ofNat, range.contains n = true :=
    hnumbers (hgiven.imp_right List.map_eq_nil_iff.mpr)
  -- A list that no entry gives is empty, so each check holds of what was read or of nothing.
  have hyearDays : (d.frequency = .yearly ∧ ∃ cs, ValueRange.yearDay.ShowsList d.yearDays cs) ∨
      d.yearDays = [] :=
    (h.given_or .yearDays).imp (fun ⟨cs, hgiven⟩ => ⟨hgiven.1, cs, hgiven.2⟩)
      (congrArg Draft.yearDays)
  have hmonthDays : (d.frequency ≠ .weekly ∧
      ∃ cs, ValueRange.monthDay.ShowsList d.monthDays cs) ∨ d.monthDays = [] :=
    (h.given_or .monthDays).imp (fun ⟨cs, hgiven⟩ => ⟨hgiven.1, cs, hgiven.2⟩)
      (congrArg Draft.monthDays)
  rw [check_eq_ok_iff]
  refine ⟨?_, ?_, ?_, ?_, hnumbers (hyearDays.imp_left And.right),
    hnumbers (hmonthDays.imp_left And.right),
    htimes ((h.given_or .hours).imp_right (congrArg Draft.hours)),
    htimes ((h.given_or .minutes).imp_right (congrArg Draft.minutes)),
    htimes ((h.given_or .seconds).imp_right (congrArg Draft.seconds)),
    hnumbers ((h.given_or .setPositions).imp_right (congrArg Draft.setPositions)), ?_⟩
  · simpa using h.count_or_deadline_eq_none
  · rcases hyearDays with hyearly | hempty
    · simp [hyearly.1]
    · simp [hempty]
  · rcases hmonthDays with hmonthDays | hempty
    · simp [hmonthDays.1]
    · simp [hempty]
  · by_cases hallows : d.frequency.allowsOrdinals = true
    · rw [hallows, Bool.true_or]
    · rw [Bool.or_eq_true, List.all_eq_true]
      refine .inr fun s hs => ?_
      rw [Option.isNone_iff_eq_none, Option.eq_none_iff_forall_not_mem]
      exact fun n hn => hallows (h.isAdmitted hs n hn).2
  · intro n hn
    obtain ⟨s, hs, hordinal⟩ := List.mem_filterMap.mp hn
    exact (h.isAdmitted hs n hordinal).1

/-- What entries say can be built into a rule. -/
theorem exists_build_of_isWrittenAs (h : d.IsWrittenAs entries) : ∃ r, d.build = .ok r := by
  have hinterval : 0 < d.interval := by
    rcases h.given_or .interval with hgiven | hdefault
    · obtain ⟨cs, -, hpos, -⟩ := hgiven
      exact hpos
    · rw [show d.interval = 1 from congrArg Draft.interval hdefault]
      exact Nat.one_pos
  rw [build, dif_pos hinterval, check_of_isWrittenAs h]
  exact ⟨_, rfl⟩

end Draft

end Timetable
