import Timetable.Proofs.Cron.Canonical
import Timetable.Proofs.Cron.Lists
import Timetable.Proofs.Rule.Numbering

/-!
# The days that the day fields accept

A mark stands for a day of every month that has such a day: `Mark.StandsFor` says which one,
in terms of the dates of the month.  What the matching computes instead, a step aside from a
weekend or a search from the end of the month, comes to the same
(`marksMonthDay_iff_standsFor`, `marksWeekday_iff_standsFor`).  A day is therefore accepted if
an entry of either field names it: `acceptsDay_iff_hasEntry`.
-/

namespace Timetable

open Civil

namespace Civil
namespace Date

/-- Whether a date falls on Monday to Friday. -/
def IsWorkday (d : Date) : Prop :=
  d.weekday ≠ .saturday ∧ d.weekday ≠ .sunday

/-- How many days a date is from a day of its month. -/
def distance (d : Date) (n : Nat) : Nat :=
  ((d.day : Int) - n).natAbs

/-- Whether a date falls on Monday to Friday and is nearer to a day of its month than all
others of the month that do. -/
structure IsNearestWorkday (d : Date) (n : Nat) : Prop where
  workday : d.IsWorkday
  distance_lt : ∀ e : Date, e.yearMonth = d.yearMonth → e.IsWorkday → e ≠ d →
    d.distance n < e.distance n

end Date
end Civil

namespace Cron

variable {d e : Date} {n : Nat}

/-- Whether a mark stands for a date. -/
def Mark.StandsFor (m : Mark) (d : Date) : Prop :=
  match m with
  | .last => d.day = d.yearMonth.length
  | .lastMinus n => d.day + n = d.yearMonth.length
  | .lastWorkday =>
      d.IsWorkday ∧ ∀ e : Date, e.yearMonth = d.yearMonth → e.IsWorkday → e.day ≤ d.day
  | .nearestWorkday n => n ≤ d.yearMonth.length ∧ d.IsNearestWorkday n
  | .lastOn weekday =>
      d.weekday = weekday ∧
        ∀ e : Date, e.yearMonth = d.yearMonth → e.weekday = weekday → e.day ≤ d.day
  | .nth weekday n =>
      d.weekday = weekday ∧
        (d.yearMonth.days.filter fun e => e.day < d.day && e.weekday = weekday).length + 1 = n

/-- Whether a field is everything, or has a value or a mark of which the mark stands for a
date. -/
def Field.HasEntry (f : Field) (v : Nat) (d : Date) : Prop :=
  match f with
  | .any => True
  | .only values marks => v ∈ values ∨ ∃ m ∈ marks, m.StandsFor d

/-! ## Weekdays of a month -/

/-- Counting weekdays from the first day of a month is counting them from day 0. -/
theorem weekdayIn_yearMonth_day (d : Date) : weekdayIn d.yearMonth d.day = d.weekday := by
  have hday := d.one_le_day
  rw [weekdayIn, Date.weekday, d.number_eq]
  congr 3
  omega

theorem weekday_eq_saturday_iff : d.weekday = .saturday ↔ (d.number + 5) % 7 = 5 := by
  have hnumber := d.number_weekday
  have hsaturday : d.weekday = .saturday ↔ d.weekday.number = 6 :=
    ⟨fun h => by rw [h]; rfl, fun h => Weekday.number_injective h⟩
  rw [hsaturday]
  omega

theorem weekday_eq_sunday_iff : d.weekday = .sunday ↔ (d.number + 5) % 7 = 6 := by
  have hnumber := d.number_weekday
  have hsunday : d.weekday = .sunday ↔ d.weekday.number = 7 :=
    ⟨fun h => by rw [h]; rfl, fun h => Weekday.number_injective h⟩
  rw [hsunday]
  omega

/-- Day 2 is a Monday, and four more workdays follow it. -/
theorem isWorkday_iff_number : d.IsWorkday ↔ (d.number + 5) % 7 < 5 := by
  rw [Date.IsWorkday, Ne, Ne, weekday_eq_saturday_iff, weekday_eq_sunday_iff]
  omega

theorem isWorkday_day_iff (d : Date) : isWorkday d.yearMonth d.day = true ↔ d.IsWorkday := by
  rw [isWorkday, weekdayIn_yearMonth_day, Date.IsWorkday]
  simp only [Bool.and_eq_true, decide_eq_true_eq]

/-! ## The last workday of a month -/

theorem mem_daysDown_iff {length day : Nat} :
    day ∈ (List.range length).reverse.map (· + 1) ↔ 1 ≤ day ∧ day ≤ length := by
  simp only [List.mem_map, List.mem_reverse, List.mem_range]
  constructor
  · rintro ⟨i, hi, rfl⟩
    omega
  · rintro ⟨hpos, hle⟩
    exact ⟨day - 1, by omega, by omega⟩

theorem daysDown_descend (length : Nat) :
    ((List.range length).reverse.map (· + 1)).Pairwise (· > ·) := by
  rw [List.pairwise_map, List.pairwise_reverse]
  apply List.pairwise_lt_range.imp
  intro i j hij
  omega

/-- The search from the end of a month finds its last workday. -/
theorem lastWorkday?_eq_some_iff (d : Date) :
    lastWorkday? d.yearMonth = some d.day ↔ Mark.lastWorkday.StandsFor d := by
  have hdays {e : Date} (he : e.yearMonth = d.yearMonth) :
      e.day ∈ (List.range d.yearMonth.length).reverse.map (· + 1) :=
    mem_daysDown_iff.mpr ⟨e.one_le_day, he ▸ e.day_le_length⟩
  have hworkday {e : Date} (he : e.yearMonth = d.yearMonth) (h : e.IsWorkday) :
      isWorkday d.yearMonth e.day = true := he ▸ (isWorkday_day_iff e).mpr h
  -- The search runs down from the month's end, so it stops at the latest workday.
  have hlatest {day : Nat} (h : lastWorkday? d.yearMonth = some day) {e : Date}
      (he : e.yearMonth = d.yearMonth) (hwork : e.IsWorkday) : e.day ≤ day := by
    have hfirst := Lists.eq_or_rel_of_find?_eq_some (daysDown_descend d.yearMonth.length) h
      (hdays he) (hworkday he hwork)
    omega
  constructor
  · intro h
    have hwork := (isWorkday_day_iff d).mp (List.find?_some h)
    exact ⟨hwork, fun e he hwork => hlatest h he hwork⟩
  · rintro ⟨hwork, hgreatest⟩
    have hsome : (lastWorkday? d.yearMonth).isSome = true := by
      rw [lastWorkday?, List.find?_isSome]
      exact ⟨d.day, hdays rfl, hworkday rfl hwork⟩
    obtain ⟨day, hday⟩ := Option.isSome_iff_exists.mp hsome
    obtain ⟨hpos, hle⟩ := mem_daysDown_iff.mp (List.mem_of_find?_eq_some hday)
    obtain ⟨e, he, rfl⟩ := d.exists_day_in_yearMonth hpos hle
    have hfound : isWorkday e.yearMonth e.day = true := he ▸ List.find?_some hday
    have hle := hgreatest e he ((isWorkday_day_iff e).mp hfound)
    rw [hday, Nat.le_antisymm hle (hlatest hday rfl hwork)]

/-! ## The workday nearest to a day -/

/-- A month has one day at most that is nearer than all others. -/
theorem eq_of_isNearestWorkday (hsame : e.yearMonth = d.yearMonth) (hd : d.IsNearestWorkday n)
    (he : e.IsNearestWorkday n) : d = e := by
  by_contra hne
  have hlt := hd.distance_lt e hsame he.workday (Ne.symm hne)
  have hgt := he.distance_lt d hsame.symm hd.workday hne
  omega

/-- The least step aside from a day `a` of a month: none from a workday, else the one to the
other side of the weekend that the month has, if the month does not have the near side. -/
theorem isNearestWorkday_of_step {a : Date} (he : e.yearMonth = a.yearMonth)
    (hstep : a.IsWorkday ∧ e.day = a.day ∨
      a.weekday = .saturday ∧ (e.day + 1 = a.day ∨ a.day = 1 ∧ e.day = a.day + 2) ∨
      a.weekday = .sunday ∧
        (e.day = a.day + 1 ∨ a.day = a.yearMonth.length ∧ e.day + 2 = a.day)) :
    e.IsNearestWorkday a.day := by
  have hdiff := Date.number_sub_number he
  rw [isWorkday_iff_number, weekday_eq_saturday_iff, weekday_eq_sunday_iff] at hstep
  constructor
  · rw [isWorkday_iff_number]
    omega
  · intro f hf hwork hne
    have hday : f.day ≠ e.day := fun hday => hne (Date.ext_yearMonth_day hf hday)
    have hfdiff := Date.number_sub_number (hf.trans he)
    have hpos := f.one_le_day
    have hle := f.day_le_length
    rw [hf, he] at hle
    rw [isWorkday_iff_number] at hwork
    -- Nearer than the step are only days of the weekend, or days that the month does not have.
    simp only [Date.distance]
    rcases hstep with hstep | hstep | hstep
    · omega
    · omega
    · omega

/-- The step aside from a weekend leads to the nearest workday. -/
theorem exists_nearestWorkday? (d : Date) (hpos : 1 ≤ n) (hle : n ≤ d.yearMonth.length) :
    ∃ e : Date, e.yearMonth = d.yearMonth ∧ nearestWorkday? d.yearMonth n = some e.day ∧
      e.IsNearestWorkday n := by
  obtain ⟨a, ha, rfl⟩ := d.exists_day_in_yearMonth hpos hle
  have hlength := d.yearMonth.le_length
  rw [nearestWorkday?, if_neg (Nat.not_lt.mpr hle), ← ha, weekdayIn_yearMonth_day]
  rw [← ha] at hle hlength
  -- On a weekend the step goes to the near side, or to the far side at the edge of the month.
  cases hweekday : a.weekday with
  | saturday =>
      by_cases hfirst : a.day = 1
      · obtain ⟨e, he, hday⟩ : ∃ e : Date, e.yearMonth = a.yearMonth ∧ e.day = a.day + 2 :=
          a.exists_day_in_yearMonth (by omega) (by omega)
        exact ⟨e, he, by simp only [hfirst, if_true, hday], isNearestWorkday_of_step he
          (.inr (.inl ⟨hweekday, .inr ⟨hfirst, hday⟩⟩))⟩
      · obtain ⟨e, he, hday⟩ : ∃ e : Date, e.yearMonth = a.yearMonth ∧ e.day = a.day - 1 :=
          a.exists_day_in_yearMonth (by omega) (by omega)
        exact ⟨e, he, by simp only [hfirst, if_false, hday], isNearestWorkday_of_step he
          (.inr (.inl ⟨hweekday, .inl (by omega)⟩))⟩
  | sunday =>
      by_cases hlast : a.day = a.yearMonth.length
      · obtain ⟨e, he, hday⟩ : ∃ e : Date, e.yearMonth = a.yearMonth ∧ e.day = a.day - 2 :=
          a.exists_day_in_yearMonth (by omega) (by omega)
        exact ⟨e, he, by simp only [if_pos hlast, hday], isNearestWorkday_of_step he
          (.inr (.inr ⟨hweekday, .inr ⟨hlast, by omega⟩⟩))⟩
      · obtain ⟨e, he, hday⟩ : ∃ e : Date, e.yearMonth = a.yearMonth ∧ e.day = a.day + 1 :=
          a.exists_day_in_yearMonth (by omega) (by omega)
        exact ⟨e, he, by simp only [if_neg hlast, hday], isNearestWorkday_of_step he
          (.inr (.inr ⟨hweekday, .inl hday⟩))⟩
  | monday | tuesday | wednesday | thursday | friday =>
      have hwork : a.IsWorkday := by
        rw [Date.IsWorkday, hweekday]
        decide
      exact ⟨a, rfl, rfl, isNearestWorkday_of_step rfl (.inl ⟨hwork, rfl⟩)⟩

theorem nearestWorkday?_eq_some_iff (hpos : 1 ≤ n) (d : Date) :
    nearestWorkday? d.yearMonth n = some d.day ↔ (Mark.nearestWorkday n).StandsFor d := by
  by_cases hle : n ≤ d.yearMonth.length
  · obtain ⟨e, he, hnearest, hstands⟩ := exists_nearestWorkday? d hpos hle
    rw [hnearest, Option.some.injEq]
    constructor
    · intro hday
      rw [← Date.ext_yearMonth_day he hday]
      exact ⟨he ▸ hle, hstands⟩
    · rintro ⟨-, hd⟩
      rw [eq_of_isNearestWorkday he hd hstands]
  · have hnone : nearestWorkday? d.yearMonth n = none := by
      rw [nearestWorkday?, if_pos (Nat.lt_of_not_le hle)]
    rw [hnone]
    exact ⟨fun h => by simp at h, fun h => absurd h.1 hle⟩

/-! ## Days of the month on one weekday -/

/-- The last day of a month on a weekday is the one after which a week is too long. -/
theorem length_lt_iff_last (d : Date) :
    d.yearMonth.length < d.day + 7 ↔
      ∀ e : Date, e.yearMonth = d.yearMonth → e.weekday = d.weekday → e.day ≤ d.day := by
  constructor
  · intro hlt e he hweekday
    have hdiff := Date.number_sub_number he
    have hle := e.day_le_length
    rw [he] at hle
    rw [Date.weekday_eq_iff] at hweekday
    omega
  · intro hlast
    by_contra hle
    obtain ⟨e, he, hday⟩ : ∃ e : Date, e.yearMonth = d.yearMonth ∧ e.day = d.day + 7 :=
      d.exists_day_in_yearMonth (by omega) (by omega)
    have hdiff := Date.number_sub_number he
    have hweekday : e.weekday = d.weekday := Date.weekday_eq_iff.mpr (by omega)
    have := hlast e he hweekday
    omega

/-- The days of a month that come before a date. -/
theorem filter_day_lt_days (d : Date) :
    (d.yearMonth.days.filter fun e => e.day < d.day) =
      Date.run d.yearMonth.firstDay (d.day - 1) := by
  have hnumber := d.number_eq
  have hpos := d.one_le_day
  have hle := d.day_le_length
  have hbefore : (d.number - d.yearMonth.firstDay).toNat = d.day - 1 := by omega
  have hinside {e : Date} (hfirst : d.yearMonth.firstDay ≤ e.number)
      (hlast : e.number < d.yearMonth.firstDay + d.yearMonth.length) :
      e.day < d.day ↔ e.number < d.number := by
    have hdiff := Date.number_sub_number (Date.yearMonth_eq hfirst hlast)
    omega
  rw [YearMonth.days, Date.run_eq_append_cons d.firstDay_le_number
    d.number_lt_firstDay_add_length, hbefore, List.filter_append, List.filter_eq_self.mpr,
    List.filter_eq_nil_iff.mpr, List.append_nil]
  · intro e he
    rcases List.mem_cons.mp he with rfl | he
    · simp
    · rw [Date.mem_run_iff] at he
      rw [decide_eq_true_eq, hinside (by omega) (by omega)]
      omega
  · intro e he
    rw [Date.mem_run_iff] at he
    rw [decide_eq_true_eq, hinside (by omega) (by omega)]
    omega

/-- As many days of the month on its weekday come before a date as there are whole weeks. -/
theorem length_weekdays_before (d : Date) :
    (d.yearMonth.days.filter fun e => e.day < d.day && e.weekday = d.weekday).length =
      (d.day - 1) / 7 := by
  have hnumber := d.number_eq
  have hfirst := (d.yearMonth.inside_of_year d.le_year d.year_le).1
  have hcount := d.length_filter_weekday_before (d.day - 1) (by omega)
  rw [show d.number - (d.day - 1 : Nat) = d.yearMonth.firstDay by omega] at hcount
  rw [← hcount, ← filter_day_lt_days, List.filter_filter]
  congr 2
  funext e
  exact Bool.and_comm _ _

/-! ## Marks and fields -/

theorem marksMonthDay_iff_standsFor {m : Mark} (h : m.Fits .dayOfMonth) (d : Date) :
    m.marksMonthDay d.yearMonth d.day = true ↔ m.StandsFor d := by
  cases m with
  | last => exact decide_eq_true_iff
  | lastMinus n => exact decide_eq_true_iff
  | lastWorkday =>
      rw [← lastWorkday?_eq_some_iff]
      exact decide_eq_true_iff
  | nearestWorkday n =>
      rw [← nearestWorkday?_eq_some_iff h.2.1]
      exact decide_eq_true_iff
  | lastOn weekday => simp [Mark.Fits] at h
  | nth weekday n => simp [Mark.Fits] at h

theorem marksWeekday_iff_standsFor {m : Mark} (h : m.Fits .dayOfWeek) (d : Date) :
    m.marksWeekday d.yearMonth d.day = true ↔ m.StandsFor d := by
  cases m with
  | last | lastMinus n | lastWorkday | nearestWorkday n => simp [Mark.Fits] at h
  | lastOn weekday =>
      rw [Mark.marksWeekday, weekdayIn_yearMonth_day, Bool.and_eq_true, decide_eq_true_eq,
        decide_eq_true_eq, length_lt_iff_last]
      apply and_congr_right
      rintro rfl
      rfl
  | nth weekday n =>
      rw [Mark.marksWeekday, weekdayIn_yearMonth_day, Bool.and_eq_true, decide_eq_true_eq,
        decide_eq_true_eq, ← length_weekdays_before]
      apply and_congr_right
      rintro rfl
      rfl

/-- A canonical field accepts what one of its entries names. -/
theorem Field.accepts_iff_hasEntry {k : Kind} {f : Field} (hf : f.IsCanonical k)
    {stands : Mark → Bool} (hstands : ∀ m, m.Fits k → (stands m = true ↔ m.StandsFor d))
    (v : Nat) : f.accepts stands v = true ↔ f.HasEntry v d := by
  cases f with
  | any => exact iff_of_true rfl trivial
  | only values marks =>
      have hfits := (show Canonical k values marks from hf).marks_fit
      simp only [accepts, HasEntry, Bool.or_eq_true, List.contains_iff_mem, List.any_eq_true]
      apply or_congr_right
      apply exists_congr
      intro m
      apply and_congr_right
      intro hm
      exact hstands m (hfits m hm)

/-- With day fields that were read, a day of a month is accepted if an entry of the one field
and an entry of the other name it.  In every month that has a day there is exactly one
workday that is nearest to it. -/
theorem acceptsDay_iff_hasEntry {e : Cron} {days weekdays : List Char}
    (hdays : Field.read .dayOfMonth days = .ok e.daysOfMonth)
    (hweekdays : Field.read .dayOfWeek weekdays = .ok e.daysOfWeek) (d : Date) :
    (e.acceptsDay d.yearMonth d.day = true ↔
        e.daysOfMonth.HasEntry d.day d ∧ e.daysOfWeek.HasEntry d.weekday.cronNumber d) ∧
      ∀ n, 1 ≤ n → n ≤ d.yearMonth.length →
        ∃! c : Date, c.yearMonth = d.yearMonth ∧ (Mark.nearestWorkday n).StandsFor c := by
  constructor
  · rw [acceptsDay, Bool.and_eq_true, Field.acceptsMonthDay_eq_accepts,
      Field.acceptsWeekday_eq_accepts, weekdayIn_yearMonth_day,
      Field.accepts_iff_hasEntry (Field.canonical_of_read hdays)
        fun m hm => marksMonthDay_iff_standsFor hm d,
      Field.accepts_iff_hasEntry (Field.canonical_of_read hweekdays)
        fun m hm => marksWeekday_iff_standsFor hm d]
  · intro n hpos hle
    obtain ⟨c, hc, -, hnearest⟩ := exists_nearestWorkday? d hpos hle
    refine ⟨c, ⟨hc, hc ▸ hle, hnearest⟩, ?_⟩
    rintro b ⟨hb, -, hnearest'⟩
    exact eq_of_isNearestWorkday (hc.trans hb.symm) hnearest' hnearest

/-- The workday nearest to the first of a month, if it is the first Monday. -/
def firstMondays : Cron :=
  { seconds := .only [0] [], minutes := .only [0] [], hours := .only [9] [],
    daysOfMonth := .only [] [.nearestWorkday 1], months := .any,
    daysOfWeek := .only [] [.nth .monday 1], years := .any, showsSeconds := false,
    showsYears := false }

/-- The first Monday of June 2024, which began on a Saturday. -/
def juneThe3rd : Date :=
  (Date.ofDay? ⟨2024, .june⟩ 3).get (by decide)

theorem juneThe3rd_hasEntry :
    Field.read .dayOfMonth ['1', 'w'] = .ok firstMondays.daysOfMonth ∧
      Field.read .dayOfWeek ['M', 'o', 'n', '#', '1'] = .ok firstMondays.daysOfWeek ∧
      firstMondays.acceptsDay juneThe3rd.yearMonth juneThe3rd.day = true ∧
      firstMondays.daysOfMonth.HasEntry 3 juneThe3rd ∧
      firstMondays.daysOfWeek.HasEntry 1 juneThe3rd ∧
      ∃! c : Date, c.yearMonth = juneThe3rd.yearMonth ∧ (Mark.nearestWorkday 1).StandsFor c := by
  have hdays : Field.read .dayOfMonth ['1', 'w'] = .ok firstMondays.daysOfMonth := by
    decide +kernel
  have hweekdays : Field.read .dayOfWeek ['M', 'o', 'n', '#', '1'] =
      .ok firstMondays.daysOfWeek := by
    decide +kernel
  have haccepts : firstMondays.acceptsDay juneThe3rd.yearMonth juneThe3rd.day = true := by
    decide +kernel
  obtain ⟨hiff, hunique⟩ := acceptsDay_iff_hasEntry hdays hweekdays juneThe3rd
  obtain ⟨hday, hweekday⟩ := hiff.mp haccepts
  have hvalue : juneThe3rd.weekday.cronNumber = 1 := by decide +kernel
  rw [hvalue] at hweekday
  exact ⟨hdays, hweekdays, haccepts, hday, hweekday, hunique 1 (by decide) (by decide)⟩

end Cron
end Timetable
