import Timetable.Cron.Parser
import Timetable.Proofs.Lists
import Timetable.Proofs.Text.Reading

/-!
# The fields of a cron expression

`Cron.Proper` is what a search relies on: the fields other than the two day fields list their
values in ascending order, so that the first value that `Field.nextFrom?` finds is the least,
and they accept at least one value of their kind.

The lemmas on readers take items and expressions that were read back to their texts.
-/

namespace Timetable
namespace Cron

namespace Field

/-- The listed values ascend. -/
def Ascends (f : Field) : Prop :=
  match f with
  | .any => True
  | .only values _ => values.Pairwise (· < ·)

/-- A field that ascends and accepts some value up to the greatest one. -/
structure Proper (f : Field) (greatest : Nat) : Prop where
  ascends : f.Ascends
  exists_le : ∃ v, v ≤ greatest ∧ f.contains v = true

variable {f : Field} {v n greatest : Nat}

theorem nextFrom?_eq_none_iff :
    f.nextFrom? v greatest = none ↔
      ∀ m, v ≤ m → m ≤ greatest → f.contains m = false := by
  cases f with
  | any =>
      simp only [nextFrom?, contains, reduceCtorEq, imp_false]
      constructor
      · intro h m hv hm
        rw [if_pos (Nat.le_trans hv hm)] at h
        simp at h
      · intro h
        rw [if_neg]
        intro hle
        exact h v (Nat.le_refl v) hle
  | only values marks =>
      simp only [nextFrom?, contains, List.find?_eq_none, Bool.and_eq_true, decide_eq_true_eq]
      constructor
      · intro h m hv hm
        by_contra hmem
        rw [Bool.not_eq_false, List.contains_iff_mem] at hmem
        exact h m hmem ⟨hv, hm⟩
      · rintro h m hmem ⟨hv, hm⟩
        have hnot := h m hv hm
        rw [← Bool.not_eq_true, List.contains_iff_mem] at hnot
        exact hnot hmem

/-- What is found is accepted, and nothing before it is. -/
theorem nextFrom?_eq_some (hf : f.Ascends) (h : f.nextFrom? v greatest = some n) :
    v ≤ n ∧ n ≤ greatest ∧ f.contains n = true ∧
      ∀ m, v ≤ m → m ≤ greatest → f.contains m = true → n ≤ m := by
  cases f with
  | any =>
      simp only [nextFrom?, Option.ite_none_right_eq_some, Option.some.injEq] at h
      obtain ⟨hle, rfl⟩ := h
      exact ⟨Nat.le_refl v, hle, rfl, fun m hv _ _ => hv⟩
  | only values marks =>
      rw [nextFrom?] at h
      have hn := List.find?_some h
      rw [Bool.and_eq_true, decide_eq_true_eq, decide_eq_true_eq] at hn
      refine ⟨hn.1, hn.2, by simpa [contains] using List.mem_of_find?_eq_some h, ?_⟩
      intro m hv hm hmem
      rw [contains, List.contains_iff_mem] at hmem
      apply Lists.le_of_find?_eq_some hf h hmem
      simp [hv, hm]

/-- From a value on a field accepts nothing, or something later, or the value itself. -/
theorem nextFrom?_cases (hf : f.Ascends) (hv : v ≤ greatest) :
    f.nextFrom? v greatest = none ∧ (∀ m, v ≤ m → m ≤ greatest → f.contains m = false) ∨
      (∃ n, f.nextFrom? v greatest = some n ∧ v < n ∧ n ≤ greatest ∧
        f.contains n = true ∧ f.contains v = false ∧
        ∀ m, v ≤ m → m ≤ greatest → f.contains m = true → n ≤ m) ∨
      f.nextFrom? v greatest = some v ∧ f.contains v = true := by
  cases h : f.nextFrom? v greatest with
  | none => exact .inl ⟨rfl, nextFrom?_eq_none_iff.mp h⟩
  | some n =>
      obtain ⟨hle, hgreatest, hcontains, hleast⟩ := nextFrom?_eq_some hf h
      rcases Nat.eq_or_lt_of_le hle with rfl | hlt
      · exact .inr (.inr ⟨rfl, hcontains⟩)
      · refine .inr (.inl ⟨n, rfl, hlt, hgreatest, hcontains, ?_, hleast⟩)
        -- Were `v` accepted, the least value found would be no later than `v`.
        by_contra hself
        have hback := hleast v (Nat.le_refl v) hv (eq_true_of_ne_false hself)
        omega

/-- From 0 on a proper field has a value to go on to. -/
theorem Proper.exists_nextFrom?_zero (hf : f.Proper greatest) :
    ∃ n, f.nextFrom? 0 greatest = some n := by
  obtain ⟨v, hv, hcontains⟩ := hf.exists_le
  rw [← Option.ne_none_iff_exists']
  intro hnone
  rw [nextFrom?_eq_none_iff] at hnone
  simp [hnone v (Nat.zero_le v) hv] at hcontains

end Field

/-- The fields of an expression, the two day fields left aside, are proper. -/
structure Proper (e : Cron) : Prop where
  seconds : e.seconds.Proper 59
  minutes : e.minutes.Proper 59
  hours : e.hours.Proper 23
  months : e.months.Proper 12
  years : e.years.Proper 2099

/-! ## Reading fields -/

theorem values_ascend (k : Kind) : k.values.Pairwise (· < ·) := by
  rw [Kind.values, List.pairwise_map]
  apply List.pairwise_lt_range.imp
  intro i j hij
  omega

/-- A field is never read without an item. -/
theorem ne_nil_of_readItems {k : Kind} {cs : List Char} {read : List Item}
    (h : readItems k cs = .ok read) : read ≠ [] := by
  rintro rfl
  have hitems := List.forall₂_nil_right_iff.mp (mapM_eq_ok_iff_forall₂.mp h)
  exact List.splitOn_ne_nil ',' cs hitems

/-! ## Reading expressions -/

/-- Whatever is read, by an alias or as it is, is read from fields. -/
theorem exists_readFields_of_parse {text : String} {e : Cron} (h : parse text = .ok e) :
    ∃ cs, readFields cs = .ok e := by
  unfold parse at h
  dsimp only at h
  split at h
  next => simp at h
  next =>
    have hread := mapError_eq_ok_iff.mp h
    unfold read at hread
    dsimp only at hread
    split at hread
    next =>
      split at hread
      next => exact ⟨_, hread⟩
      next => simp at hread
    next => exact ⟨_, hread⟩

end Cron
end Timetable
