import Timetable.Proofs.Civil.Calendar
import Timetable.Rule.Selection

/-!
# Which day a signed number names

`Position.member?` looks up a signed number in a list: 1 names the first member, -1 the last.
Rules compute with positions instead.  Both come to the same for the days of a month and of a
year, and for those of them that fall on one weekday: `member?_days_eq_some_iff`,
`member?_daysOfYear_eq_some_iff` and the lemmas on weekdays beside them.

The days before and after a date that fall on its weekday are counted by
`length_filter_weekday_before` and `length_filter_weekday_after`: every seventh.
-/

namespace Timetable

open Civil

namespace Position

variable {α : Type}

/-- The member of a list that a signed number names: counted from 1 at the front or, if the
number is negative, at the back. -/
def member? (members : List α) (n : Int) : Option α :=
  if 0 < n then members[n.toNat - 1]?
  else if n < 0 then members.reverse[(-n).toNat - 1]?
  else none

/-- A member that comes once is found behind those before it, and nowhere else. -/
private theorem getElem?_append_cons_eq_some_iff {front back : List α} {a : α} {i : Nat}
    (hfront : a ∉ front) (hback : a ∉ back) :
    (front ++ a :: back)[i]? = some a ↔ i = front.length := by
  constructor
  · intro h
    rcases Nat.lt_trichotomy i front.length with hlt | heq | hgt
    · rw [List.getElem?_append_left hlt] at h
      exact absurd (List.mem_of_getElem? h) hfront
    · exact heq
    · rw [List.getElem?_append_right (Nat.le_of_lt hgt),
        show i - front.length = (i - front.length - 1) + 1 by omega,
        List.getElem?_cons_succ] at h
      exact absurd (List.mem_of_getElem? h) hback
  · rintro rfl
    simp

/-- A member that comes once is named from the front by how many come before it, and from
the back by how many come after it. -/
theorem member?_append_cons_eq_some_iff {front back : List α} {a : α} {n : Int}
    (hfront : a ∉ front) (hback : a ∉ back) :
    member? (front ++ a :: back) n = some a ↔
      (⟨front.length + 1, back.length + 1⟩ : Position).isNamedBy n = true := by
  rw [isNamedBy_iff, member?]
  split
  next hpos =>
    rw [getElem?_append_cons_eq_some_iff hfront hback]
    dsimp only
    omega
  next =>
    split
    next hneg =>
      have hreverse : (front ++ a :: back).reverse = back.reverse ++ a :: front.reverse := by
        simp
      rw [hreverse, getElem?_append_cons_eq_some_iff (by simpa using hback)
        (by simpa using hfront), List.length_reverse]
      dsimp only
      omega
    next =>
      dsimp only
      simp only [reduceCtorEq, false_iff]
      omega

end Position

namespace Civil

/-- The days of a month in order. -/
def YearMonth.days (ym : YearMonth) : List Date :=
  Date.run ym.firstDay ym.length

/-- The days of a year in order. -/
def daysOfYear (year : Int) : List Date :=
  Date.run (daysBeforeYear year) (daysInYear year)

namespace Date

variable {d : Date} {first : Int} {m n : Nat}

/-! ## Consecutive days -/

theorem run_add (first : Int) (m n : Nat) :
    run first (m + n) = run first m ++ run (first + m) n := by
  unfold run
  rw [List.range_add, List.filterMap_append, List.filterMap_map]
  congr 2
  funext i
  simp [Int.add_assoc]

theorem run_number_one (d : Date) : run d.number 1 = [d] := by
  simp [run, List.range_one]

theorem run_succ_eq_cons (h : d.number = first) : run first (n + 1) = d :: run (first + 1) n := by
  rw [Nat.add_comm, run_add, ← h, run_number_one]
  rfl

theorem run_succ_eq_concat (h : d.number = first + n) : run first (n + 1) = run first n ++ [d] := by
  rw [run_add, ← h, run_number_one]

/-- Days inside the calendar are all there. -/
theorem length_run (hfirst : -3652059 ≤ first) (hlast : first + n ≤ 3652425) :
    (run first n).length = n := by
  unfold run
  rw [List.length_filterMap_eq_countP, List.countP_eq_length.mpr, List.length_range]
  intro i hi
  rw [List.mem_range] at hi
  have hinside : -3652059 ≤ first + i ∧ first + i ≤ 3652424 := by omega
  simp [ofNumber?, hinside]

/-- A run is what comes before a day of it, the day, and what comes after. -/
theorem run_eq_append_cons (hle : first ≤ d.number) (hlt : d.number < first + n) :
    run first n = run first (d.number - first).toNat ++
      d :: run (d.number + 1) (first + n - 1 - d.number).toNat := by
  have hbefore : d.number = first + ((d.number - first).toNat : Nat) := by omega
  have hcount : n = (d.number - first).toNat + ((first + n - 1 - d.number).toNat + 1) := by
    omega
  calc run first n
      = run first ((d.number - first).toNat + ((first + n - 1 - d.number).toNat + 1)) := by
        rw [← hcount]
    _ = _ := by rw [run_add, ← hbefore, run_succ_eq_cons rfl]

/-- Of the days before a date every seventh falls on its weekday. -/
theorem length_filter_weekday_before (d : Date) (m : Nat) (h : -3652059 ≤ d.number - m) :
    ((run (d.number - m) m).filter (·.weekday = d.weekday)).length = m / 7 := by
  induction m with
  | zero => rfl
  | succ m ih =>
      have hlast := d.le_last
      obtain ⟨e, he⟩ : ∃ e : Date, e.number = d.number - (m + 1 : Nat) :=
        ⟨⟨_, h, by omega⟩, rfl⟩
      have hsame : e.weekday = d.weekday ↔ (m + 1) % 7 = 0 := by
        rw [weekday_eq_iff]
        omega
      rw [run_succ_eq_cons he, show d.number - (m + 1 : Nat) + 1 = d.number - m by omega,
        List.filter_cons]
      simp only [hsame, decide_eq_true_eq]
      split
      · rw [List.length_cons, ih (by omega)]
        omega
      · rw [ih (by omega)]
        omega

/-- Of the days after a date every seventh falls on its weekday. -/
theorem length_filter_weekday_after (d : Date) (m : Nat) (h : d.number + m ≤ 3652424) :
    ((run (d.number + 1) m).filter (·.weekday = d.weekday)).length = m / 7 := by
  induction m with
  | zero => rfl
  | succ m ih =>
      have hfirst := d.first_le
      obtain ⟨e, he⟩ : ∃ e : Date, e.number = d.number + 1 + m :=
        ⟨⟨_, by omega, by omega⟩, rfl⟩
      have hsame : e.weekday = d.weekday ↔ (m + 1) % 7 = 0 := by
        rw [weekday_eq_iff]
        omega
      rw [run_succ_eq_concat he, List.filter_append, List.length_append, ih (by omega),
        List.filter_cons, List.filter_nil]
      simp only [hsame, decide_eq_true_eq]
      split
      · rw [List.length_singleton]
        omega
      · rw [List.length_nil]
        omega

/-- A date does not come among the days before it. -/
private theorem not_mem_run_before (d : Date) (first : Int) :
    d ∉ run first (d.number - first).toNat := by
  rw [mem_run_iff]
  omega

/-- A date does not come among the days after it. -/
private theorem not_mem_run_after (d : Date) (n : Nat) : d ∉ run (d.number + 1) n := by
  rw [mem_run_iff]
  omega

section Inside

variable {k : Int} (hfirst : -3652059 ≤ first) (hlast : first + n ≤ 3652425)
  (hle : first ≤ d.number) (hlt : d.number < first + n)

include hfirst hlast hle hlt

/-- In a run of days a date is named by how many days it is from the ends. -/
theorem member?_run_eq_some_iff :
    Position.member? (run first n) k = some d ↔
      (Position.ofIndex ((d.number - first).toNat + 1) n).isNamedBy k = true := by
  have hback : n - ((d.number - first).toNat + 1) = (first + n - 1 - d.number).toNat := by
    omega
  rw [run_eq_append_cons hle hlt, Position.member?_append_cons_eq_some_iff
    (not_mem_run_before d first) (not_mem_run_after d _), length_run hfirst (by omega),
    length_run (by omega) (by omega), Position.ofIndex, hback]

/-- Among the days of a run that fall on its weekday a date is named by how many weeks it is
from the ends. -/
theorem member?_filter_weekday_eq_some_iff :
    Position.member? ((run first n).filter (·.weekday = d.weekday)) k = some d ↔
      (Rule.weekdayPosition (Position.ofIndex ((d.number - first).toNat + 1) n)).isNamedBy
        k = true := by
  have hbefore := d.length_filter_weekday_before (d.number - first).toNat (by omega)
  have hafter := d.length_filter_weekday_after (first + n - 1 - d.number).toNat (by omega)
  have hback : n - ((d.number - first).toNat + 1) = (first + n - 1 - d.number).toNat := by
    omega
  rw [show d.number - ((d.number - first).toNat : Nat) = first by omega] at hbefore
  rw [run_eq_append_cons hle hlt, List.filter_append, List.filter_cons_of_pos (by simp),
    Position.member?_append_cons_eq_some_iff
      (fun h => not_mem_run_before d first (List.mem_filter.mp h).1)
      (fun h => not_mem_run_after d _ (List.mem_filter.mp h).1),
    hbefore, hafter, Position.ofIndex, hback]
  rfl

end Inside

/-! ## The days of a month and of a year -/

/-- The day of the month is the place of a date among the days of its month. -/
theorem member?_days_eq_some_iff (d : Date) (n : Int) :
    Position.member? d.yearMonth.days n = some d ↔
      (Rule.monthPosition d).isNamedBy n = true := by
  obtain ⟨hfirst, hlast⟩ := d.yearMonth.inside_of_year d.le_year d.year_le
  exact member?_run_eq_some_iff hfirst hlast d.firstDay_le_number
    d.number_lt_firstDay_add_length

/-- The weeks of a month place a date among the days of its month that fall on its weekday. -/
theorem member?_weekdays_eq_some_iff (d : Date) (n : Int) :
    Position.member? (d.yearMonth.days.filter (·.weekday = d.weekday)) n = some d ↔
      (Rule.weekdayPosition (Rule.monthPosition d)).isNamedBy n = true := by
  obtain ⟨hfirst, hlast⟩ := d.yearMonth.inside_of_year d.le_year d.year_le
  exact member?_filter_weekday_eq_some_iff hfirst hlast d.firstDay_le_number
    d.number_lt_firstDay_add_length

theorem daysBeforeYear_le_number (d : Date) : daysBeforeYear d.year ≤ d.number :=
  daysBeforeYear_yearOfDay_le d.number

theorem number_lt_daysBeforeYear_add (d : Date) :
    d.number < daysBeforeYear d.year + daysInYear d.year := by
  rw [← daysBeforeYear_succ]
  exact lt_daysBeforeYear_yearOfDay_succ d.number

/-- The day of the year is the place of a date among the days of its year. -/
theorem member?_daysOfYear_eq_some_iff (d : Date) (n : Int) :
    Position.member? (daysOfYear d.year) n = some d ↔
      (Rule.yearPosition d).isNamedBy n = true := by
  obtain ⟨hfirst, hlast⟩ := year_inside d.le_year d.year_le
  exact member?_run_eq_some_iff hfirst hlast d.daysBeforeYear_le_number
    d.number_lt_daysBeforeYear_add

/-- The weeks of a year place a date among the days of its year that fall on its weekday. -/
theorem member?_weekdaysOfYear_eq_some_iff (d : Date) (n : Int) :
    Position.member? ((daysOfYear d.year).filter (·.weekday = d.weekday)) n = some d ↔
      (Rule.weekdayPosition (Rule.yearPosition d)).isNamedBy n = true := by
  obtain ⟨hfirst, hlast⟩ := year_inside d.le_year d.year_le
  exact member?_filter_weekday_eq_some_iff hfirst hlast d.daysBeforeYear_le_number
    d.number_lt_daysBeforeYear_add

end Date
end Civil
end Timetable
