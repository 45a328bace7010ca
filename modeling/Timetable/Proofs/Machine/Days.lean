import Timetable.Proofs.Machine.Word
import Timetable.Proofs.Rule.Meaning
import Timetable.Proofs.Rule.Ranges

/-!
# Days with machine numbers

The days of a month or of a year that a rule selects can be computed from its lists: a number is
resolved to a place in the month or year, an ordinal is looked up among the days that fall on
its weekday, and the days that all lists have are kept.  `monthDates` and `yearDates` do this
with machine numbers.

If the lists hold the numbers that rules may hold, none of this breaks down, and the days are
those that the rule admits: `gathers_monthDates` and `gathers_yearDates`.
-/

namespace Timetable
namespace Machine

open Civil

/-! ## Months and weekdays -/

/-- Whether a date lies in one of the listed months, if there are any. -/
def matchesMonth (months : List Month) (d : Date) : Machine Bool :=
  if months.isEmpty then
    return true
  else
    months.anyM fun m => do
      let number ← Word.signed8.cast m.number
      return number == d.month.number

/-- Whether a date falls on one of the listed weekdays, if there are any. -/
def matchesWeekday (selectors : List WeekdaySelector) (d : Date) : Bool :=
  selectors.isEmpty || selectors.any fun s => s.weekday = d.weekday

/-- The date of some numbers, if the calendar has it. -/
def dateOf? (year month day : Int) : Option Date :=
  (Month.ofNumber? month.toNat).bind fun m => Date.ofDay? ⟨year, m⟩ day.toNat

/-- The dates with a day of the listed months of a year. -/
def datesInMonths (year : Int) (months : List Month) (day : Int) : Machine (List Date) := do
  let dates ← months.mapM fun m => do
    let number ← Word.signed8.cast m.number
    return dateOf? year number day
  return dates.filterMap id

variable {r : Rule} {d : Date}

theorem cast_number (m : Month) : Word.signed8.cast m.number = pure (m.number : Int) := by
  have hle := m.number_le
  exact Word.cast_of_holds (Word.holds_signed8_iff.mpr (by omega))

theorem matchesMonth_eq (months : List Month) (d : Date) :
    matchesMonth months d = pure (months.isEmpty || months.contains d.month) := by
  unfold matchesMonth
  cases months.isEmpty with
  | true => rfl
  | false =>
      have hmonth (m : Month) : (do
          let number ← Word.signed8.cast m.number
          return number == d.month.number : Machine Bool) = pure (d.month == m) := by
        rw [cast_number, pure_bind]
        congr 1
        rw [Bool.eq_iff_iff, beq_iff_eq, beq_iff_eq, Int.ofNat_inj]
        exact ⟨fun h => (Month.number_injective h).symm, fun h => by rw [h]⟩
      rw [if_neg Bool.false_ne_true, Bool.false_or, anyM_of_forall_mem fun m _ => hmonth m,
        List.contains_eq_any_beq]

theorem matchesMonth_rule (r : Rule) (d : Date) :
    matchesMonth r.months d = pure (r.admitsMonth d.month) :=
  matchesMonth_eq r.months d

theorem matchesWeekday_eq (hplain : ∀ s ∈ r.weekdays, s.ordinal = none) (d : Date) :
    matchesWeekday r.weekdays d = r.admitsWeekday d := by
  rw [Bool.eq_iff_iff, Rule.admitsWeekday_iff_listsWeekday,
    Rule.listsWeekday_iff_of_plain hplain]
  simp [matchesWeekday]

theorem dateOf?_number (year : Int) (m : Month) (day : Nat) :
    dateOf? year m.number day = Date.ofDay? ⟨year, m⟩ day := by
  rw [dateOf?, Int.toNat_natCast, Int.toNat_natCast, Month.ofNumber?_eq_some_iff.mpr rfl,
    Option.bind_some]

theorem datesInMonths_eq (year : Int) (months : List Month) (day : Nat) :
    datesInMonths year months day =
      pure (months.filterMap fun m => Date.ofDay? ⟨year, m⟩ day) := by
  rw [datesInMonths, mapM_of_forall_mem (g := fun m => Date.ofDay? ⟨year, m⟩ day), pure_bind,
    List.filterMap_map]
  · rfl
  · intro m _
    rw [cast_number, pure_bind, dateOf?_number]

theorem datesInMonths_one (year : Int) (months : List Month) :
    datesInMonths year months 1 = pure (months.filterMap fun m => Date.ofDay? ⟨year, m⟩ 1) :=
  datesInMonths_eq year months 1

/-! ## Numbers that count days -/

/-- The place that a listed number names in a month or year, counted from the end unless the
number is positive. -/
def resolve (w : Word) (number length : Int) : Machine (Option Int) := do
  let place ←
    if 0 < number then
      pure number
    else do
      let sum ← w.add length number
      w.add sum 1
  return if 1 ≤ place ∧ place ≤ length then some place else none

/-- Whether one of the listed numbers, if there are any, names a date in its month. -/
def matchesMonthDay (numbers : List Int) (d : Date) : Machine Bool :=
  if numbers.isEmpty then
    return true
  else
    numbers.anyM fun n => do
      let place ← resolve .signed8 n d.yearMonth.length
      return place == some (d.day : Int)

/-- The date that a listed number names in the year that begins with a date. -/
def yearDayDate (january : Date) (number : Int) : Machine (Option Date) := do
  let some place ← resolve .signed16 number (daysInYear january.year) | return none
  let days ← Word.signed64.sub place 1
  return january.addDays? days

/-- A number is resolved to the place that it names. -/
theorem exists_resolve {w : Word} {n : Int} (length : Nat) (hsum : w.Holds (length + n))
    (hnext : w.Holds (length + n + 1)) :
    ∃ place?, resolve w n length = pure place? ∧ ∀ place : Int, place? = some place ↔
      1 ≤ place ∧ place ≤ length ∧ (n = place ∨ n = place - length - 1) := by
  unfold resolve
  split
  next hpos =>
    refine ⟨_, rfl, fun place => ?_⟩
    rw [Option.ite_none_right_eq_some, Option.some.injEq]
    omega
  next hneg =>
    rw [Word.add_of_holds hsum, pure_bind, Word.add_of_holds hnext, pure_bind]
    refine ⟨_, rfl, fun place => ?_⟩
    rw [Option.ite_none_right_eq_some, Option.some.injEq]
    omega

example : resolve .signed8 (-1) 28 = pure (some 28) := rfl

theorem matchesMonthDay_eq (hranges : r.WithinRanges) (d : Date) :
    matchesMonthDay r.monthDays d = pure (r.admitsMonthDay d) := by
  unfold matchesMonthDay Rule.admitsMonthDay
  cases r.monthDays.isEmpty with
  | true => rfl
  | false =>
      rw [if_neg Bool.false_ne_true, Bool.false_or, anyM_of_forall_mem]
      intro n hn
      obtain ⟨hleast, hgreatest, -⟩ := hranges.monthDays n hn
      have hlength := d.yearMonth.length_le
      have hshort := d.yearMonth.le_length
      obtain ⟨place?, hresolve, hplace⟩ := exists_resolve (w := .signed8) (n := n)
        d.yearMonth.length (Word.holds_signed8_iff.mpr (by omega))
        (Word.holds_signed8_iff.mpr (by omega))
      rw [hresolve, pure_bind]
      congr 1
      rw [Bool.eq_iff_iff, beq_iff_eq, hplace, Rule.monthPosition,
        Position.isNamedBy_ofIndex_iff d.day_le_length]
      have hday := d.one_le_day
      have hlast := d.day_le_length
      omega

theorem daysInYear_bounds (year : Int) : 365 ≤ daysInYear year ∧ daysInYear year ≤ 366 := by
  unfold daysInYear
  split <;> omega

/-- A number of a year's days gives the date of the year whose place it names. -/
theorem exists_yearDayDate {january : Date} (hfirst : january.number = daysBeforeYear january.year)
    {n : Int} (hleast : -366 ≤ n) (hgreatest : n ≤ 366) :
    ∃ date?, yearDayDate january n = pure date? ∧ ∀ d, date? = some d ↔
      d.year = january.year ∧ (Rule.yearPosition d).isNamedBy n = true := by
  obtain ⟨hshort, hlong⟩ := daysInYear_bounds january.year
  obtain ⟨place?, hresolve, hplace⟩ := exists_resolve (w := .signed16) (n := n)
    (daysInYear january.year) (Word.holds_signed16_iff.mpr (by omega))
    (Word.holds_signed16_iff.mpr (by omega))
  -- A date of the year is at the place of its day of the year.
  have hnamed {d : Date} (hyear : d.year = january.year) :
      (Rule.yearPosition d).isNamedBy n = true ↔ place? = some (d.yearDay : Int) := by
    have hle := d.daysBeforeYear_le_number
    have hlt := d.number_lt_daysBeforeYear_add
    have hday : (d.yearDay : Int) = d.number - daysBeforeYear d.year + 1 := by
      rw [Date.yearDay]
      omega
    rw [hplace, Rule.yearPosition, Position.isNamedBy_ofIndex_iff (by omega), hyear]
    rw [hyear] at hday hle hlt
    omega
  rw [yearDayDate, hresolve, pure_bind]
  cases place? with
  | none =>
      refine ⟨none, rfl, fun d => ?_⟩
      simp only [reduceCtorEq, false_iff, not_and]
      intro hyear
      rw [hnamed hyear]
      simp
  | some place =>
      obtain ⟨hpos, hle, -⟩ := (hplace place).mp rfl
      dsimp only
      rw [Word.sub_of_holds (Word.holds_signed64_iff.mpr (by omega)), pure_bind]
      refine ⟨_, rfl, fun d => ?_⟩
      rw [Date.addDays?_eq_some_iff]
      constructor
      · intro hnumber
        have hyear : d.year = january.year := by
          apply yearOfDay_eq
          · omega
          · rw [daysBeforeYear_succ]
            omega
        refine ⟨hyear, (hnamed hyear).mpr ?_⟩
        rw [Date.yearDay, hyear]
        congr 1
        omega
      · rintro ⟨hyear, hname⟩
        have hday := Option.some.inj ((hnamed hyear).mp hname)
        have hbegin := d.daysBeforeYear_le_number
        rw [Date.yearDay] at hday
        rw [hyear] at hday hbegin
        omega

/-! ## Weekdays with ordinals -/

/-- The days that a selector picks from the days of a month or year. -/
def selectWeekdays (days : List Date) (s : WeekdaySelector) : Machine (List Date) :=
  let matching := days.filter fun d => d.weekday = s.weekday
  match s.ordinal with
  | none => return matching
  | some n =>
      if 0 < n then do
        let place ← Word.unsigned64.cast n
        let index ← Word.unsigned64.sub place 1
        return matching[index.toNat]?.toList
      else do
        let distance ← Word.unsigned64.cast n.natAbs
        let some index := Word.unsigned64.fit? (matching.length - distance) | return []
        return matching[index.toNat]?.toList

/-- The days that some selectors pick. -/
def namedWeekdays (selectors : List WeekdaySelector) (days : List Date) :
    Machine (List Date) :=
  selectors.flatMapM (selectWeekdays days)

/-- The ordinal picks the day that it names among those that fall on the weekday. -/
theorem gathers_selectWeekdays {days : List Date} (hlength : days.length ≤ 366)
    {s : WeekdaySelector} (hordinal : ∀ n ∈ s.ordinal, -53 ≤ n ∧ n ≤ 53 ∧ n ≠ 0) :
    Gathers (selectWeekdays days s) fun d => d ∈ days ∧ s.weekday = d.weekday ∧
      ∀ n ∈ s.ordinal, Position.member? (days.filter (·.weekday = s.weekday)) n = some d := by
  unfold selectWeekdays
  have hmatching : (days.filter fun d => d.weekday = s.weekday).length ≤ 366 :=
    (List.length_filter_le _ _).trans hlength
  have hmem (d : Date) :
      d ∈ days.filter (fun d => d.weekday = s.weekday) ↔ d ∈ days ∧ s.weekday = d.weekday := by
    rw [List.mem_filter, decide_eq_true_eq, eq_comm (a := d.weekday)]
  generalize days.filter (fun d => d.weekday = s.weekday) = matching at hmatching hmem ⊢
  dsimp only
  cases hs : s.ordinal with
  | none => exact gathers_pure fun d => by simp [hmem]
  | some n =>
      obtain ⟨hleast, hgreatest, hne⟩ := hordinal n hs
      -- What is looked up is named by the ordinal, and it is one of the days that match.
      have hpicked {i : Nat} (hmember : Position.member? matching n = matching[i]?) :
          Gathers (pure matching[i]?.toList) fun d => d ∈ days ∧ s.weekday = d.weekday ∧
            ∀ m ∈ some n, Position.member? matching m = some d := by
        refine gathers_pure fun d => ?_
        simp only [Option.mem_toList, Option.mem_def, Option.some.injEq, forall_eq', hmember]
        constructor
        · intro hd
          obtain ⟨hday, hweekday⟩ := (hmem d).mp (List.mem_of_getElem? hd)
          exact ⟨hday, hweekday, hd⟩
        · exact fun h => h.2.2
      dsimp only
      split
      next hpos =>
        rw [Word.cast_of_holds (Word.holds_unsigned64_iff.mpr (by omega)), pure_bind,
          Word.sub_of_holds (Word.holds_unsigned64_iff.mpr (by omega)), pure_bind]
        apply hpicked
        rw [Position.member?, if_pos hpos]
        congr 1
        omega
      next hneg =>
        have hmember : Position.member? matching n = matching.reverse[(-n).toNat - 1]? := by
          rw [Position.member?, if_neg hneg, if_pos (by omega)]
        rw [Word.cast_of_holds (Word.holds_unsigned64_iff.mpr (by omega)), pure_bind]
        by_cases hfar : matching.length < n.natAbs
        · rw [Word.fit?_of_not_holds (by rw [Word.holds_unsigned64_iff]; omega)]
          refine gathers_pure fun d => ?_
          have hnone : matching.reverse[(-n).toNat - 1]? = none := by
            rw [List.getElem?_eq_none_iff, List.length_reverse]
            omega
          simp [hmember, hnone]
        · rw [Word.fit?_of_holds (Word.holds_unsigned64_iff.mpr (by omega))]
          apply hpicked
          rw [hmember, List.getElem?_reverse (by omega)]
          congr 1
          omega

theorem gathers_namedWeekdays (hranges : r.WithinRanges) {days : List Date}
    (hlength : days.length ≤ 366) :
    Gathers (namedWeekdays r.weekdays days) fun d =>
      d ∈ days ∧ ∃ s ∈ r.weekdays, s.weekday = d.weekday ∧
        ∀ n ∈ s.ordinal, Position.member? (days.filter (·.weekday = s.weekday)) n = some d := by
  refine (gathers_flatMapM fun s hs =>
    gathers_selectWeekdays hlength (hranges.ordinals s hs)).congr fun d => ?_
  constructor
  · rintro ⟨s, hs, hday, hnamed⟩
    exact ⟨hday, s, hs, hnamed⟩
  · rintro ⟨hday, s, hs, hnamed⟩
    exact ⟨s, hs, hday, hnamed⟩

/-! ## Days that all lists have -/

/-- The set of dates that belongs to a list, if anything is listed. -/
def whenListed {α : Type} (listed : List α) (dates : Machine (List Date)) :
    Machine (Option (List Date)) :=
  if listed.isEmpty then
    return none
  else do
    return some (← dates)

/-- The dates that all given sets have; a set that is not given sets no limit. -/
def intersect (sets : List (Option (List Date))) : List Date :=
  match sets.filterMap id with
  | [] => []
  | first :: rest => rest.foldl (fun dates set => dates.filter (set.contains ·)) first

/-- The dates of a month that a monthly rule's lists have. -/
def monthDates (r : Rule) (month : YearMonth) : Machine (List Date) := do
  let byMonthDay ← whenListed r.monthDays (month.days.filterM (matchesMonthDay r.monthDays))
  let byWeekday ← whenListed r.weekdays (namedWeekdays r.weekdays month.days)
  return intersect [byMonthDay, byWeekday]

/-- The days of the listed months of a year, or of the whole year if no months are listed. -/
def daysInMonths (year : Int) (months : List Month) : Machine (List Date) :=
  if months.isEmpty then
    return daysOfYear year
  else do
    let firsts ← datesInMonths year months 1
    return firsts.flatMap fun first => first.yearMonth.days

/-- The days that a rule's numbers name in the year that begins with a date, as far as they lie
in its months. -/
def yearDayDates (r : Rule) (january : Date) : Machine (List Date) := do
  let dates ← r.yearDays.flatMapM fun n => return (← yearDayDate january n).toList
  dates.filterM (matchesMonth r.months)

/-- The days that the selectors pick within each of the listed months of a year, or within the
year if no months are listed. -/
def weekdaysInMonths (year : Int) (months : List Month) (selectors : List WeekdaySelector) :
    Machine (List Date) :=
  if months.isEmpty then
    namedWeekdays selectors (daysOfYear year)
  else do
    let firsts ← datesInMonths year months 1
    firsts.flatMapM fun first => namedWeekdays selectors first.yearMonth.days

/-- The dates of the year that begins with a date that a yearly rule's lists have. -/
def yearDates (r : Rule) (january : Date) : Machine (List Date) := do
  let inScope ← daysInMonths january.year r.months
  let byYearDay ← whenListed r.yearDays (yearDayDates r january)
  let byMonthDay ← whenListed r.monthDays (inScope.filterM (matchesMonthDay r.monthDays))
  let byWeekday ← whenListed r.weekdays (weekdaysInMonths january.year r.months r.weekdays)
  return intersect [byYearDay, byMonthDay, byWeekday]

theorem mem_foldl_filter_iff {sets : List (List Date)} {dates : List Date} :
    d ∈ sets.foldl (fun dates set => dates.filter (set.contains ·)) dates ↔
      d ∈ dates ∧ ∀ set ∈ sets, d ∈ set := by
  induction sets generalizing dates with
  | nil => simp
  | cons set sets ih =>
      rw [List.foldl_cons, ih, List.forall_mem_cons, List.mem_filter, List.contains_iff_mem,
        and_assoc]

/-- If a set is given at all, the dates are those that all given sets have. -/
theorem mem_intersect_iff {sets : List (Option (List Date))} (h : ∃ set? ∈ sets, set? ≠ none) :
    d ∈ intersect sets ↔ ∀ set, some set ∈ sets → d ∈ set := by
  have hmem (set : List Date) : set ∈ sets.filterMap id ↔ some set ∈ sets := by
    simp
  obtain ⟨given, hgiven, hne⟩ := h
  obtain ⟨set, rfl⟩ := Option.ne_none_iff_exists'.mp hne
  rw [← hmem] at hgiven
  simp only [← hmem]
  unfold intersect
  cases hsets : sets.filterMap id with
  | nil =>
      rw [hsets] at hgiven
      exact absurd hgiven List.not_mem_nil
  | cons first rest =>
      dsimp only
      rw [mem_foldl_filter_iff, List.forall_mem_cons]

/-- Whether a set, if it is given, has the dates of a scope that keep a limit.  If it is not
given, all dates keep the limit. -/
def Limits (scope : Date → Prop) (set? : Option (List Date)) (limit : Date → Prop) : Prop :=
  match set? with
  | none => ∀ d, limit d
  | some set => ∀ d, d ∈ set ↔ scope d ∧ limit d

/-- The dates that all given sets have are those of the scope that keep all limits. -/
theorem mem_intersect_iff_of_limits (scope : Date → Prop)
    (sets : List (Option (List Date) × (Date → Prop)))
    (hlimits : ∀ s ∈ sets, Limits scope s.1 s.2) (hgiven : ∃ s ∈ sets, s.1 ≠ none) :
    d ∈ intersect (sets.map Prod.fst) ↔ scope d ∧ ∀ s ∈ sets, s.2 d := by
  obtain ⟨given, hmem, hne⟩ := hgiven
  obtain ⟨set, hset⟩ := Option.ne_none_iff_exists'.mp hne
  -- The intersection is taken of the sets that are given; here at least one is.
  rw [mem_intersect_iff ⟨given.1, List.mem_map_of_mem hmem, hne⟩]
  constructor
  · intro hall
    have hkeeps : scope d ∧ given.2 d := by
      have hlimit := hlimits given hmem
      rw [hset] at hlimit
      exact (hlimit d).mp (hall set (hset ▸ List.mem_map_of_mem hmem))
    refine ⟨hkeeps.1, fun s hs => ?_⟩
    have hlimit := hlimits s hs
    cases hs' : s.1 with
    | none =>
        rw [hs'] at hlimit
        exact hlimit d
    | some other =>
        rw [hs'] at hlimit
        exact ((hlimit d).mp (hall other (hs' ▸ List.mem_map_of_mem hs))).2
  · rintro ⟨hscope, hall⟩ other hother
    obtain ⟨s, hs, hs'⟩ := List.mem_map.mp hother
    have hlimit := hlimits s hs
    rw [hs'] at hlimit
    exact (hlimit d).mpr ⟨hscope, hall s hs⟩

/-- Whether a list sets a limit to the dates of a scope, unless it lists nothing. -/
def SetsLimit {α : Type} (scope : Date → Prop) (listed : List α) (dates : Machine (List Date))
    (limit : Date → Prop) : Prop :=
  ∃ set?, whenListed listed dates = pure set? ∧ Limits scope set? limit ∧
    (listed ≠ [] → set? ≠ none)

theorem setsLimit_of_gathers {α : Type} {listed : List α} {dates : Machine (List Date)}
    {scope limit : Date → Prop} (h : listed ≠ [] → Gathers dates fun d => scope d ∧ limit d)
    (hopen : listed = [] → ∀ d, limit d) : SetsLimit scope listed dates limit := by
  unfold SetsLimit whenListed
  cases listed with
  | nil => exact ⟨none, rfl, hopen rfl, fun hne => absurd rfl hne⟩
  | cons a listed =>
      obtain ⟨set, hset, hmem⟩ := h (List.cons_ne_nil a listed)
      rw [hset]
      exact ⟨some set, rfl, hmem, fun _ => Option.some_ne_none set⟩

/-! ## The days of months and years -/

theorem mem_days_iff {month : YearMonth} : d ∈ month.days ↔ d.yearMonth = month := by
  rw [YearMonth.days, Date.mem_run_iff]
  constructor
  · rintro ⟨hle, hlt⟩
    exact Date.yearMonth_eq hle hlt
  · rintro rfl
    exact ⟨d.firstDay_le_number, d.number_lt_firstDay_add_length⟩

theorem mem_daysOfYear_iff {year : Int} : d ∈ daysOfYear year ↔ d.year = year := by
  rw [daysOfYear, Date.mem_run_iff]
  constructor
  · rintro ⟨hle, hlt⟩
    rw [← daysBeforeYear_succ] at hlt
    exact yearOfDay_eq hle hlt
  · rintro rfl
    exact ⟨d.daysBeforeYear_le_number, d.number_lt_daysBeforeYear_add⟩

theorem length_run_le (first : Int) (n : Nat) : (Date.run first n).length ≤ n :=
  (List.length_filterMap_le _ _).trans (List.length_range ▸ le_refl _)

theorem length_days_le (month : YearMonth) : month.days.length ≤ 366 := by
  have hlength := month.length_le
  exact (length_run_le _ _).trans (by omega)

theorem length_daysOfYear_le (year : Int) : (daysOfYear year).length ≤ 366 :=
  (length_run_le _ _).trans (daysInYear_bounds year).2

theorem setsLimit_monthDays (hranges : r.WithinRanges) (days : List Date) :
    SetsLimit (· ∈ days) r.monthDays (days.filterM (matchesMonthDay r.monthDays))
      (r.admitsMonthDay · = true) := by
  apply setsLimit_of_gathers
  · intro _
    rw [filterM_of_forall_mem fun d _ => matchesMonthDay_eq hranges d]
    exact gathers_pure fun d => List.mem_filter
  · intro h d
    rw [Rule.admitsMonthDay, h, List.isEmpty_nil, Bool.true_or]

theorem admitsWeekday_of_eq_nil (h : r.weekdays = []) (d : Date) :
    r.admitsWeekday d = true := by
  rw [Rule.admitsWeekday, h, List.isEmpty_nil, Bool.true_or]

/-- If weekdays are listed, a date needs one of them. -/
theorem admitsWeekday_iff_of_ne_nil (h : r.weekdays ≠ []) :
    r.admitsWeekday d = true ↔ ∃ s ∈ r.weekdays, s.weekday = d.weekday ∧ ∀ n ∈ s.ordinal,
      Position.member? ((r.ordinalDays d).filter (·.weekday = s.weekday)) n = some d := by
  rw [Rule.admitsWeekday_iff_listsWeekday, Rule.ListsWeekday, or_iff_right h]

/-- If days are listed, the dates of a month are those that a rule admits whose ordinals count
within the month. -/
theorem gathers_monthDates (hranges : r.WithinRanges) (hcounts : r.countsWithinYear = false)
    (hlisted : r.monthDays ≠ [] ∨ r.weekdays ≠ []) (month : YearMonth) :
    Gathers (monthDates r month) fun d => d.yearMonth = month ∧ r.admitsMonthDay d = true ∧
      r.admitsWeekday d = true := by
  obtain ⟨byMonthDay, hbyMonthDay, hmonthDay, hgiven⟩ := setsLimit_monthDays hranges month.days
  have hweekdays : SetsLimit (· ∈ month.days) r.weekdays (namedWeekdays r.weekdays month.days)
      (r.admitsWeekday · = true) := by
    refine setsLimit_of_gathers (fun hne => ?_) admitsWeekday_of_eq_nil
    refine (gathers_namedWeekdays hranges (length_days_le month)).congr fun d => ?_
    refine and_congr_right fun hday => ?_
    rw [admitsWeekday_iff_of_ne_nil hne, Rule.ordinalDays, hcounts, if_neg Bool.false_ne_true,
      mem_days_iff.mp hday]
  obtain ⟨byWeekday, hbyWeekday, hweekday, hgiven'⟩ := hweekdays
  rw [monthDates, hbyMonthDay, pure_bind, hbyWeekday, pure_bind]
  refine gathers_pure fun d => ?_
  have hmem := mem_intersect_iff_of_limits (d := d) (· ∈ month.days)
    [(byMonthDay, (r.admitsMonthDay · = true)), (byWeekday, (r.admitsWeekday · = true))]
    (by simp [hmonthDay, hweekday]) (by simpa using hlisted.imp hgiven hgiven')
  simpa [mem_days_iff] using hmem

/-- The first days of the listed months of a year stand for the months. -/
theorem exists_first_iff (months : List Month) {year : Int} (hfirst : -9999 ≤ year)
    (hlast : year ≤ 9999) {P : YearMonth → Prop} :
    (∃ first ∈ months.filterMap fun m => Date.ofDay? ⟨year, m⟩ 1,
        d ∈ first.yearMonth.days ∧ P first.yearMonth) ↔
      (d.year = year ∧ d.month ∈ months) ∧ P d.yearMonth := by
  simp only [List.mem_filterMap, Date.ofDay?_eq_some_iff, mem_days_iff]
  constructor
  · rintro ⟨first, ⟨m, hm, hmonth, -⟩, hd, hP⟩
    rw [hmonth] at hd
    have hyear : d.yearMonth.year = year := by rw [hd]
    have hlisted : d.yearMonth.month ∈ months := by rwa [hd]
    rw [hmonth, ← hd] at hP
    exact ⟨⟨hyear, hlisted⟩, hP⟩
  · rintro ⟨⟨rfl, hlisted⟩, hP⟩
    obtain ⟨first, hone⟩ := Date.exists_ofDay? d.yearMonth hfirst hlast (Nat.le_refl 1)
      d.yearMonth.one_le_length
    obtain ⟨hmonth, hday⟩ := Date.ofDay?_eq_some_iff.mp hone
    exact ⟨first, ⟨d.month, hlisted, hmonth, hday⟩, hmonth.symm, hmonth.symm ▸ hP⟩

theorem gathers_daysInMonths {year : Int} (hfirst : -9999 ≤ year) (hlast : year ≤ 9999) :
    Gathers (daysInMonths year r.months) fun d =>
      d.year = year ∧ r.admitsMonth d.month = true := by
  simp only [Rule.admitsMonth_iff]
  unfold daysInMonths
  split
  next hempty =>
    rw [List.isEmpty_iff] at hempty
    exact gathers_pure fun d => by simp [mem_daysOfYear_iff, hempty]
  next hne =>
    rw [List.isEmpty_iff] at hne
    rw [datesInMonths_one, pure_bind]
    refine gathers_pure fun d => ?_
    have hscope := exists_first_iff (d := d) (P := fun _ => True) r.months hfirst hlast
    simpa [hne] using hscope

theorem setsLimit_yearDays (hranges : r.WithinRanges) {january : Date}
    (hfirst : january.number = daysBeforeYear january.year) {inScope : List Date}
    (hscope : ∀ d, d ∈ inScope ↔ d.year = january.year ∧ r.admitsMonth d.month = true) :
    SetsLimit (· ∈ inScope) r.yearDays (yearDayDates r january) (r.admitsYearDay · = true) := by
  apply setsLimit_of_gathers
  · intro hne
    have hdates : Gathers (r.yearDays.flatMapM fun n => do
        return (← yearDayDate january n).toList) fun d => ∃ n ∈ r.yearDays,
          d.year = january.year ∧ (Rule.yearPosition d).isNamedBy n = true := by
      refine gathers_flatMapM fun n hn => ?_
      obtain ⟨hleast, hgreatest, -⟩ := hranges.yearDays n hn
      obtain ⟨date?, hdate, hnamed⟩ := exists_yearDayDate hfirst hleast hgreatest
      rw [hdate, pure_bind]
      exact gathers_pure fun d => Option.mem_toList.trans (hnamed d)
    refine (hdates.filterM (matchesMonth_rule r)).congr fun d => ?_
    rw [hscope, Rule.admitsYearDay, List.isEmpty_eq_false_iff.mpr hne, Bool.false_or,
      List.any_eq_true]
    constructor
    · rintro ⟨⟨n, hn, hyear, hnamed⟩, hmonth⟩
      exact ⟨⟨hyear, hmonth⟩, n, hn, hnamed⟩
    · rintro ⟨⟨hyear, hmonth⟩, n, hn, hnamed⟩
      exact ⟨⟨n, hn, hyear, hnamed⟩, hmonth⟩
  · intro h d
    rw [Rule.admitsYearDay, h, List.isEmpty_nil, Bool.true_or]

/-- Ordinals count within the year if no months are listed, and within each month else. -/
theorem gathers_weekdaysInMonths (hranges : r.WithinRanges) (hyearly : r.frequency = .yearly)
    {year : Int} (hfirst : -9999 ≤ year) (hlast : year ≤ 9999) :
    Gathers (weekdaysInMonths year r.months r.weekdays) fun d =>
      (d.year = year ∧ r.admitsMonth d.month = true) ∧
        ∃ s ∈ r.weekdays, s.weekday = d.weekday ∧ ∀ n ∈ s.ordinal,
          Position.member? ((r.ordinalDays d).filter (·.weekday = s.weekday)) n = some d := by
  simp only [Rule.admitsMonth_iff, Rule.ordinalDays, Rule.countsWithinYear, hyearly]
  unfold weekdaysInMonths
  split
  next hempty =>
    refine (gathers_namedWeekdays hranges (length_daysOfYear_le year)).congr fun d => ?_
    rw [List.isEmpty_iff] at hempty
    simp only [mem_daysOfYear_iff, hempty, true_or, and_true, List.isEmpty_nil, decide_true,
      Bool.and_self, if_true]
    exact and_congr_right fun hyear => by rw [hyear]
  next hne =>
    rw [datesInMonths_one, pure_bind]
    refine (gathers_flatMapM fun first _ =>
      gathers_namedWeekdays hranges (length_days_le first.yearMonth)).congr fun d => ?_
    rw [List.isEmpty_iff] at hne
    refine (exists_first_iff r.months hfirst hlast (P := fun month => ∃ s ∈ r.weekdays,
      s.weekday = d.weekday ∧ ∀ n ∈ s.ordinal,
        Position.member? (month.days.filter (·.weekday = s.weekday)) n = some d)).trans ?_
    simp [hne]

/-- If days are listed, the dates of a year are those that a yearly rule admits. -/
theorem gathers_yearDates (hranges : r.WithinRanges) (hyearly : r.frequency = .yearly)
    (hlisted : r.listsDays = true) {january : Date}
    (hfirst : january.number = daysBeforeYear january.year) :
    Gathers (yearDates r january) fun d => d.year = january.year ∧
      r.admitsMonth d.month = true ∧ r.admitsYearDay d = true ∧ r.admitsMonthDay d = true ∧
        r.admitsWeekday d = true := by
  obtain ⟨inScope, hinScope, hscope⟩ :=
    gathers_daysInMonths (r := r) january.le_year january.year_le
  obtain ⟨byYearDay, hbyYearDay, hyearDay, hgiven⟩ := setsLimit_yearDays hranges hfirst hscope
  obtain ⟨byMonthDay, hbyMonthDay, hmonthDay, hgiven'⟩ := setsLimit_monthDays hranges inScope
  have hweekdays : SetsLimit (· ∈ inScope) r.weekdays
      (weekdaysInMonths january.year r.months r.weekdays) (r.admitsWeekday · = true) := by
    refine setsLimit_of_gathers (fun hne => ?_) admitsWeekday_of_eq_nil
    simp only [admitsWeekday_iff_of_ne_nil hne, hscope]
    exact gathers_weekdaysInMonths hranges hyearly january.le_year january.year_le
  obtain ⟨byWeekday, hbyWeekday, hweekday, hgiven''⟩ := hweekdays
  rw [yearDates, hinScope, pure_bind, hbyYearDay, pure_bind, hbyMonthDay, pure_bind,
    hbyWeekday, pure_bind]
  refine gathers_pure fun d => ?_
  have hlists : r.yearDays ≠ [] ∨ r.monthDays ≠ [] ∨ r.weekdays ≠ [] := by
    simpa [Rule.listsDays, or_assoc] using hlisted
  -- Each of the three lists is one set of dates, or sets no limit to those in scope.
  have hmem := mem_intersect_iff_of_limits (d := d) (· ∈ inScope)
    [(byYearDay, (r.admitsYearDay · = true)), (byMonthDay, (r.admitsMonthDay · = true)),
      (byWeekday, (r.admitsWeekday · = true))]
    (by simp [hyearDay, hmonthDay, hweekday])
    (by simpa using hlists.imp hgiven (Or.imp hgiven' hgiven''))
  simpa [hscope, and_assoc] using hmem

end Machine
end Timetable
