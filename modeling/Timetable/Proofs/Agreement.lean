import Timetable.Proofs.Cron.Days
import Timetable.Proofs.Cron.Sequence
import Timetable.Proofs.Rule.Bounded
import Timetable.Proofs.Rule.Members

/-!
# Rules and expressions that agree

A daily or monthly rule can have the same lists as a cron expression: `Rule.HasCronForm`
says when, and `Rule.cronText` writes the expression.  Every item of the expression accepts
what the member of the rule's list accepts for which it stands
(`accepts_monthDayItem_iff`, `WeekdaySelector.accepts_cronItem_iff`), so that the expression
matches the occurrences of the rule in the years that expressions reach, and nothing else
(`HasCronForm.listsMatches_filter_occurrences`).  The search through the fields and the
expansion of periods therefore give the same sequence.
-/

namespace Timetable

open Civil
open Text (decimal)

theorem Civil.Weekday.cronNumber_injective {d e : Weekday} (h : d.cronNumber = e.cronNumber) :
    d = e := by
  rw [← Option.some.injEq, ← Weekday.ofCronNumber?_cronNumber, h,
    Weekday.ofCronNumber?_cronNumber]

/-! ## The years that expressions reach -/

/-- The last second of the last year that expressions reach. -/
def lastSecond : DateTime :=
  (DateTime.ofReading? 2099 12 31 23 59 59 0).get (by decide)

/-- Whole seconds up to the last one are those of the years up to the last one. -/
theorem le_lastSecond_iff {t : DateTime} (h : t.time.nanosecond = 0) :
    t ≤ lastSecond ↔ t.date.year ≤ 2099 := by
  have hyear : lastSecond.date.year = 2099 := by decide +kernel
  have hmonth : lastSecond.date.month.number = 12 := by decide +kernel
  have hday : lastSecond.date.day = 31 := by decide +kernel
  have htime : lastSecond.time.secondOfDay = 86399 := by decide +kernel
  constructor
  · intro hle
    rw [← hyear]
    exact Date.year_le_of_number_le (DateTime.number_le_of_le hle)
  · intro hle
    have hmonthLe := t.date.month.number_le
    have hdayLe := Nat.le_trans t.date.day_le_length (YearMonth.length_le _)
    have hsecond := t.time.secondOfDay_lt
    have hdate : ¬ lastSecond.date.number < t.date.number := by
      rw [Date.number_lt_iff]
      omega
    rw [DateTime.le_iff_instant_le, DateTime.instant, DateTime.instant]
    omega

/-! ## Members of lists and items -/

/-- The text of a day of the month in an expression: the number, or how far the day is from
the last one. -/
def monthDayChars (n : Int) : List Char :=
  if 0 < n then decimal n.toNat
  else if n = -1 then ['L']
  else 'L' :: '-' :: decimal (-n - 1).toNat

/-- The text of a weekday in an expression: its number, and the ordinal after a sign. -/
def WeekdaySelector.cronChars (s : WeekdaySelector) : List Char :=
  decimal s.weekday.cronNumber ++
    match s.ordinal with
    | none => []
    | some m => if m = -1 then ['L'] else '#' :: decimal m.toNat

/-- The item for a day of the month. -/
def monthDayItem (n : Int) : Cron.Item :=
  if 0 < n then .value n.toNat
  else if n = -1 then .mark .last
  else .mark (.lastMinus (-n - 1).toNat)

/-- The item for a weekday. -/
def WeekdaySelector.cronItem (s : WeekdaySelector) : Cron.Item :=
  match s.ordinal with
  | none => .value s.weekday.cronNumber
  | some m => .mark (if m = -1 then .lastOn s.weekday else .nth s.weekday m.toNat)

theorem chars_monthDayItem (n : Int) : (monthDayItem n).chars = monthDayChars n := by
  unfold monthDayItem monthDayChars
  split
  · exact Cron.Item.chars_value _
  split
  · rfl
  · rfl

theorem WeekdaySelector.chars_cronItem (s : WeekdaySelector) :
    s.cronItem.chars = s.cronChars := by
  unfold cronItem cronChars
  split
  · rw [Cron.Item.chars_value, List.append_nil]
  split
  · rfl
  · rfl

/-- The days of the month that both texts can name. -/
def IsMonthDay (n : Int) : Prop :=
  1 ≤ n ∧ n ≤ 31 ∨ -31 ≤ n ∧ n ≤ -1

/-- The ordinals that both texts can name. -/
def IsOrdinal (m : Int) : Prop :=
  1 ≤ m ∧ m ≤ 5 ∨ m = -1

instance (n : Int) : Decidable (IsMonthDay n) :=
  inferInstanceAs (Decidable (_ ∨ _))

instance (m : Int) : Decidable (IsOrdinal m) :=
  inferInstanceAs (Decidable (_ ∨ _))

theorem fits_monthDayItem {n : Int} (h : IsMonthDay n) : (monthDayItem n).Fits .dayOfMonth := by
  unfold IsMonthDay at h
  unfold monthDayItem
  split
  · exact Cron.Item.fits_value (show 1 ≤ n.toNat by omega) (show n.toNat ≤ 31 by omega)
  split
  · exact rfl
  · exact ⟨rfl, by omega, by omega⟩

theorem WeekdaySelector.fits_cronItem {s : WeekdaySelector}
    (h : ∀ m ∈ s.ordinal, IsOrdinal m) : s.cronItem.Fits .dayOfWeek := by
  unfold cronItem
  split
  · exact Cron.Item.fits_value (Nat.zero_le _) (by cases s.weekday <;> decide)
  next m hm =>
    have hordinal := h m hm
    unfold IsOrdinal at hordinal
    split
    · exact rfl
    · exact ⟨rfl, by omega, by omega⟩

/-- The item for a day of the month accepts the day with this number. -/
theorem accepts_monthDayItem_iff {n : Int} (h : IsMonthDay n) (d : Date) :
    (monthDayItem n).accepts (·.marksMonthDay d.yearMonth d.day) d.day = true ↔
      (Rule.monthPosition d).isNamedBy n = true := by
  have hpos := d.one_le_day
  have hle := d.day_le_length
  rw [Rule.monthPosition, Position.isNamedBy_ofIndex_iff hle]
  unfold IsMonthDay at h
  unfold monthDayItem
  split
  · rw [Cron.Item.accepts_value_iff]
    omega
  split
  all_goals
    simp only [Cron.Item.accepts, Cron.Mark.marksMonthDay, decide_eq_true_eq]
    omega

/-- The item for a weekday accepts the days of its name that the ordinal picks out. -/
theorem WeekdaySelector.accepts_cronItem_iff {s : WeekdaySelector}
    (h : ∀ m ∈ s.ordinal, IsOrdinal m) (d : Date) :
    s.cronItem.accepts (·.marksWeekday d.yearMonth d.day)
        (Cron.weekdayIn d.yearMonth d.day).cronNumber = true ↔
      s.weekday = d.weekday ∧
        s.ordinal.all (Rule.weekdayPosition (Rule.monthPosition d)).isNamedBy = true := by
  have hpos := d.one_le_day
  have hle := d.day_le_length
  rw [Cron.weekdayIn_yearMonth_day]
  unfold cronItem
  split
  next hnone =>
    rw [Cron.Item.accepts_value_iff, hnone]
    simp only [Option.all_none, and_true]
    exact ⟨fun hnumber => (Weekday.cronNumber_injective hnumber).symm, fun hday => by rw [hday]⟩
  next m hm =>
    have hordinal := h m hm
    unfold IsOrdinal at hordinal
    rw [hm, Option.all_some, Position.isNamedBy_iff]
    split
    all_goals
      simp only [Cron.Item.accepts, Cron.Mark.marksWeekday, Cron.weekdayIn_yearMonth_day,
        Rule.weekdayPosition, Rule.monthPosition, Position.ofIndex, Bool.and_eq_true,
        decide_eq_true_eq, @eq_comm _ d.weekday]
      apply and_congr_right
      intro _
      omega

/-! ## Rules with the lists of an expression -/

namespace Rule

/-- A rule with the lists of a cron expression: it lists its times of day, goes on without an
end or an interval, and is daily, or monthly with days of its own. -/
structure HasCronForm (r : Rule) : Prop where
  interval_eq : r.interval = 1
  ending_eq : r.ending = none
  setPositions_eq : r.setPositions = []
  yearDays_eq : r.yearDays = []
  hours_ne_nil : r.hours ≠ []
  minutes_ne_nil : r.minutes ≠ []
  seconds_ne_nil : r.seconds ≠ []
  hour_le : ∀ h ∈ r.hours, h ≤ 23
  minute_le : ∀ m ∈ r.minutes, m ≤ 59
  second_le : ∀ s ∈ r.seconds, s ≤ 59
  monthDay : ∀ n ∈ r.monthDays, IsMonthDay n
  daily_or_monthly :
    r.frequency = .daily ∧ (∀ s ∈ r.weekdays, s.ordinal = none) ∨
      r.frequency = .monthly ∧ (r.monthDays ≠ [] ∨ r.weekdays ≠ []) ∧
        ∀ s ∈ r.weekdays, ∀ m ∈ s.ordinal, IsOrdinal m

/-- The fields of the expression with the lists of a rule. -/
def cronFields (r : Rule) : List (List Char) :=
  [Cron.listChars (r.seconds.map decimal),
   Cron.listChars (r.minutes.map decimal),
   Cron.listChars (r.hours.map decimal),
   Cron.listChars (r.monthDays.map monthDayChars),
   Cron.listChars (r.months.map fun m => decimal m.number),
   Cron.listChars (r.weekdays.map WeekdaySelector.cronChars)]

/-- The text of the expression with the lists of a rule. -/
def cronText (r : Rule) : String :=
  String.ofList ([' '].intercalate r.cronFields)

/-- The items for the lists of a rule. -/
def cronLists (r : Rule) : Cron.ItemLists where
  seconds := r.seconds.map .value
  minutes := r.minutes.map .value
  hours := r.hours.map .value
  daysOfMonth := r.monthDays.map monthDayItem
  months := r.months.map fun m => .value m.number
  daysOfWeek := r.weekdays.map WeekdaySelector.cronItem

theorem fields_cronLists (r : Rule) : r.cronLists.fields = r.cronFields := by
  simp only [Cron.ItemLists.fields, cronLists, cronFields, List.map_cons, List.map_nil,
    List.map_map, Function.comp_def, Cron.Item.chars_value, chars_monthDayItem,
    WeekdaySelector.chars_cronItem]

namespace HasCronForm

variable {r : Rule} {start t : DateTime}

theorem isOrdinal (h : r.HasCronForm) {s : WeekdaySelector} (hs : s ∈ r.weekdays) :
    ∀ m ∈ s.ordinal, IsOrdinal m := by
  rcases h.daily_or_monthly with ⟨-, hplain⟩ | ⟨-, -, hordinal⟩
  · simp [hplain s hs]
  · exact hordinal s hs

theorem fits_cronLists (h : r.HasCronForm) : r.cronLists.Fits where
  seconds := by
    simp only [cronLists, List.forall_mem_map]
    exact fun s hs => Cron.Item.fits_value (Nat.zero_le s) (h.second_le s hs)
  minutes := by
    simp only [cronLists, List.forall_mem_map]
    exact fun m hm => Cron.Item.fits_value (Nat.zero_le m) (h.minute_le m hm)
  hours := by
    simp only [cronLists, List.forall_mem_map]
    exact fun o ho => Cron.Item.fits_value (Nat.zero_le o) (h.hour_le o ho)
  daysOfMonth := by
    simp only [cronLists, List.forall_mem_map]
    exact fun n hn => fits_monthDayItem (h.monthDay n hn)
  months := by
    simp only [cronLists, List.forall_mem_map]
    exact fun m _ => Cron.Item.fits_value m.one_le_number m.number_le
  daysOfWeek := by
    simp only [cronLists, List.forall_mem_map]
    exact fun s hs => s.fits_cronItem (h.isOrdinal hs)

/-- The text with the lists of the rule is read as the expression with its items. -/
theorem parse_cronText (h : r.HasCronForm) :
    Cron.parse r.cronText = .ok r.cronLists.expression := by
  rw [cronText, ← fields_cronLists]
  exact Cron.ItemLists.parse_fields h.fits_cronLists

/-! ## Days and times -/

/-- A rule that lists no days is daily, so the day of the start does not matter. -/
theorem selects_iff (h : r.HasCronForm) (first d : Date) :
    r.selects first d = true ↔
      r.admitsMonth d.month = true ∧ r.admitsMonthDay d = true ∧ r.admitsWeekday d = true := by
  have hyearDay : r.admitsYearDay d = true := by
    rw [admitsYearDay, h.yearDays_eq]
    rfl
  rw [selects, Bool.and_eq_true]
  apply and_congr_right
  intro _
  split
  next => rw [hyearDay, Bool.true_and, Bool.and_eq_true]
  next hlists =>
    obtain ⟨hmonthDays, hweekdays⟩ : r.monthDays = [] ∧ r.weekdays = [] := by
      simpa [listsDays, h.yearDays_eq] using hlists
    rcases h.daily_or_monthly with ⟨hdaily, -⟩ | ⟨-, hdays, -⟩
    · simp [isStartDay, hdaily, admitsMonthDay, hmonthDays, admitsWeekday, hweekdays]
    · simp [hmonthDays, hweekdays] at hdays

theorem countsWithinYear_eq (h : r.HasCronForm) : r.countsWithinYear = false := by
  rcases h.daily_or_monthly with ⟨hfrequency, -⟩ | ⟨hfrequency, -⟩
  · simp [countsWithinYear, hfrequency]
  · simp [countsWithinYear, hfrequency]

theorem listAccepts_months_iff (d : Date) :
    Cron.ListAccepts (fun _ => false) r.cronLists.months d.month.number ↔
      r.admitsMonth d.month = true := by
  simp only [cronLists, Cron.listAccepts_map_iff, Cron.Item.accepts_value_iff, admitsMonth,
    Bool.or_eq_true, List.isEmpty_iff, List.contains_iff_mem]
  apply or_congr_right
  constructor
  · rintro ⟨m, hm, hnumber⟩
    rwa [Month.number_injective hnumber]
  · exact fun hm => ⟨d.month, hm, rfl⟩

theorem listAccepts_daysOfMonth_iff (h : r.HasCronForm) (d : Date) :
    Cron.ListAccepts (·.marksMonthDay d.yearMonth d.day) r.cronLists.daysOfMonth d.day ↔
      r.admitsMonthDay d = true := by
  rw [cronLists, Cron.listAccepts_map_iff, admitsMonthDay, Bool.or_eq_true, List.isEmpty_iff,
    List.any_eq_true]
  apply or_congr_right
  apply exists_congr
  intro n
  apply and_congr_right
  exact fun hn => accepts_monthDayItem_iff (h.monthDay n hn) d

theorem listAccepts_daysOfWeek_iff (h : r.HasCronForm) (d : Date) :
    Cron.ListAccepts (·.marksWeekday d.yearMonth d.day) r.cronLists.daysOfWeek
        (Cron.weekdayIn d.yearMonth d.day).cronNumber ↔
      r.admitsWeekday d = true := by
  rw [cronLists, Cron.listAccepts_map_iff, admitsWeekday, Bool.or_eq_true, List.isEmpty_iff,
    List.any_eq_true, ordinalPosition, h.countsWithinYear_eq]
  apply or_congr_right
  apply exists_congr
  intro s
  apply and_congr_right
  intro hs
  rw [s.accepts_cronItem_iff (h.isOrdinal hs), Bool.and_eq_true, decide_eq_true_eq]
  rfl

/-- A day has the listed times, to the nanosecond of the start. -/
theorem mem_datetimesOn_iff_listed (h : r.HasCronForm) {own : Time} :
    t ∈ r.datetimesOn own t.date ↔
      t.time.hour ∈ r.hours ∧ t.time.minute ∈ r.minutes ∧ t.time.second ∈ r.seconds ∧
        t.time.nanosecond = own.nanosecond := by
  have hexpansion : r.expansion own = ⟨Clock.limit r.hours 24, Clock.limit r.minutes 60,
      Clock.limit r.seconds 60⟩ := by
    have hexpand {listed : List Nat} (hne : listed ≠ []) (bound own : Nat) :
        Clock.expand listed bound own = Clock.limit listed bound := by
      rw [Clock.expand, if_neg (by simpa using hne)]
    rcases h.daily_or_monthly with ⟨hfrequency, -⟩ | ⟨hfrequency, -⟩
    all_goals
      rw [expansion, hfrequency]
      simp only [hexpand h.hours_ne_nil, hexpand h.minutes_ne_nil, hexpand h.seconds_ne_nil]
  rw [mem_datetimesOn_iff, (r.proper_expansion own).mem_times_iff_components, hexpansion]
  simp only [Clock.mem_limit_iff, h.hours_ne_nil, h.minutes_ne_nil, h.seconds_ne_nil, false_or,
    true_and, and_assoc]
  have hhour := t.time.hour_lt
  have hminute := t.time.minute_lt
  have hsecond := t.time.second_lt
  simp only [Time.hour, Time.minute, Time.second] at *
  simp only [hhour, hminute, hsecond, true_and]

/-- The expression with the lists of the rule matches the selected days at the listed
times. -/
theorem isMatch_iff (h : r.HasCronForm) (hwhole : t.time.nanosecond = start.time.nanosecond) :
    r.cronLists.expression.isMatch t = true ↔
      (1970 ≤ t.date.year ∧ t.date.year ≤ 2099) ∧ r.selects start.date t.date = true ∧
        t ∈ r.datetimesOn start.time t.date := by
  have hlisted {values : List Nat} (hne : values ≠ []) (v : Nat) :
      Cron.ListAccepts (fun _ => false) (values.map .value) v ↔ v ∈ values := by
    rw [Cron.listAccepts_value_iff, or_iff_right hne]
  rw [Cron.ItemLists.isMatch_expression_iff h.fits_cronLists, listAccepts_months_iff,
    h.listAccepts_daysOfMonth_iff, h.listAccepts_daysOfWeek_iff, h.selects_iff,
    h.mem_datetimesOn_iff_listed]
  simp only [cronLists, hlisted h.hours_ne_nil, hlisted h.minutes_ne_nil,
    hlisted h.seconds_ne_nil, hwhole, and_true, and_assoc]

/-! ## The two sequences -/

/-- From a start in the years that expressions reach on, the rule has periods for all the
dates up to the last of these years. -/
theorem reachesDate (h : r.HasCronForm) {first date : Date} (hfirst : 1970 ≤ first.year)
    (hle : first.number ≤ date.number) (hlast : date.year ≤ 2099) :
    r.ReachesDate first date := by
  rcases h.daily_or_monthly with ⟨hfrequency, -⟩ | ⟨hfrequency, -⟩
  · exact reachesDate_of_daily hfrequency h.interval_eq hle
  · apply reachesDate_of_monthly hfrequency h.interval_eq (Date.index_le_of_number_le hle)
    have hpos := first.month.one_le_number
    have hmonth := date.month.number_le
    simp only [YearMonth.index, YearMonth.greatestShift, Date.yearMonth_year]
    simp only [Date.month] at hpos hmonth
    omega

/-- The occurrences of the rule up to the end of the last year that expressions reach are
the matches of the expression with its lists. -/
theorem listsMatches_filter_occurrences (h : r.HasCronForm)
    (hwhole : start.time.nanosecond = 0) (hfirst : 1970 ≤ start.date.year) :
    r.cronLists.expression.ListsMatches start
      ((r.occurrences start).toList.filter (· ≤ lastSecond)) where
  ascends := (r.toList_occurrences_pairwise_lt start).filter _
  mem_iff t := by
    have hunit : r.frequency.unitSeconds? = none := by
      rcases h.daily_or_monthly with ⟨hfrequency, -⟩ | ⟨hfrequency, -⟩
      all_goals
        rw [hfrequency]
        rfl
    rw [List.mem_filter, decide_eq_true_eq,
      mem_toList_occurrences_iff hunit h.ending_eq h.setPositions_eq]
    constructor
    · rintro ⟨⟨hstart, -, hselects, htimes⟩, hlast⟩
      have hnano : t.time.nanosecond = start.time.nanosecond :=
        (mem_datetimesOn_iff.mp htimes).2.2
      have hyear := Date.year_le_of_number_le (DateTime.number_le_of_le hstart)
      refine ⟨hnano.trans hwhole, hstart, (h.isMatch_iff hnano).mpr ⟨⟨?_, ?_⟩, hselects, htimes⟩⟩
      · omega
      · exact (le_lastSecond_iff (hnano.trans hwhole)).mp hlast
    · rintro ⟨hnano, hstart, hmatch⟩
      obtain ⟨⟨-, hlast⟩, hselects, htimes⟩ :=
        (h.isMatch_iff (hnano.trans hwhole.symm)).mp hmatch
      exact ⟨⟨hstart, h.reachesDate hfirst (DateTime.number_le_of_le hstart) hlast, hselects,
        htimes⟩, (le_lastSecond_iff hnano).mpr hlast⟩

end HasCronForm

/-- A rule and the expression with the same lists agree: from every whole second on in the
years that expressions reach, the calls of `next` give the same datetimes. -/
theorem exists_cron_item_eq_between {r : Rule} {start : DateTime} (h : r.HasCronForm)
    (hwhole : start.time.nanosecond = 0) (hfirst : 1970 ≤ start.date.year) :
    ∃ e, Cron.parse r.cronText = .ok e ∧
      ∀ n, (e.occurrences start Cron.defaultSteps).item n =
        (r.between start lastSecond).item n := by
  refine ⟨r.cronLists.expression, h.parse_cronText, ?_⟩
  intro n
  rw [item_between_eq_getElem?]
  exact Cron.item_occurrences_eq_getElem? (Cron.proper_of_parse h.parse_cronText)
    (Nat.le_refl _) (h.listsMatches_filter_occurrences hwhole hfirst) n

/-- A monthly rule for the last Friday or the third Monday of two months, where that is the
15th or one of the last two days. -/
def paydays : Rule where
  frequency := .monthly
  interval := 1
  ending := none
  weekStart := .monday
  months := [.february, .may]
  yearDays := []
  monthDays := [-1, -2, 15]
  weekdays := [⟨.friday, some (-1)⟩, ⟨.monday, some 3⟩]
  hours := [9, 17]
  minutes := [30]
  seconds := [0]
  setPositions := []
  interval_pos := Nat.one_pos

/-- The first midnight of 2026. -/
def newYear2026 : DateTime :=
  (DateTime.ofReading? 2026 1 1 0 0 0 0).get (by decide)

theorem paydays_agree :
    paydays.HasCronForm ∧ paydays.cronText = "0 30 9,17 L,L-1,15 2,5 5L,1#3" ∧
      ∃ e, Cron.parse paydays.cronText = .ok e ∧
        ∀ n, (e.occurrences newYear2026 Cron.defaultSteps).item n =
          (paydays.between newYear2026 lastSecond).item n := by
  have hform : paydays.HasCronForm := by
    constructor
    case daily_or_monthly => exact .inr (by decide)
    all_goals decide
  exact ⟨hform, by decide +kernel,
    exists_cron_item_eq_between hform (by decide +kernel) (by decide +kernel)⟩

end Rule

end Timetable
