import Timetable.Proofs.Lists
import Timetable.Rule.Position

/-!
# Selecting by position

`Position.select` keeps the order of the members and drops those that no number names.
Of the signed numbers it depends on which ones there are.
-/

namespace Timetable
namespace Position

variable {α : Type}

private theorem filterMap_zipIdx_sublist (keep : Nat → Bool) (members : List α) (k : Nat) :
    ((members.zipIdx k).filterMap fun (member, i) => if keep i then some member else none).Sublist
      members := by
  induction members generalizing k with
  | nil => simp
  | cons member members ih =>
      rw [List.zipIdx_cons]
      by_cases h : keep k = true
      · simpa [List.filterMap_cons, h] using ih (k + 1)
      · simpa [List.filterMap_cons, h] using (ih (k + 1)).cons member

/-- What is selected keeps its order. -/
theorem select_sublist (names : List Int) (members : List α) :
    (select names members).Sublist members := by
  unfold select
  split
  · exact List.Sublist.refl members
  · exact filterMap_zipIdx_sublist
      (fun i => names.any (ofIndex i members.length).isNamedBy) members 1

@[simp] theorem select_nil (names : List Int) : select names ([] : List α) = [] := by
  simp [select]

/-- A member is selected when one of the numbers names its place, or when there is no
number. -/
theorem mem_select_iff {names : List Int} {members : List α} {a : α} :
    a ∈ select names members ↔
      ∃ i, members[i]? = some a ∧
        (names = [] ∨ ∃ name ∈ names, (ofIndex (i + 1) members.length).isNamedBy name) := by
  unfold select
  by_cases h : names = []
  · simp [h, List.mem_iff_getElem?]
  · simp only [List.isEmpty_iff, h, if_false, false_or, List.mem_filterMap, Prod.exists,
      List.mk_mem_zipIdx_iff_le_and_getElem?_sub, List.any_eq_true,
      Option.ite_none_right_eq_some, Option.some.injEq]
    constructor
    · rintro ⟨b, i, ⟨hpos, hb⟩, hname, rfl⟩
      refine ⟨i - 1, hb, ?_⟩
      rwa [Nat.sub_add_cancel hpos]
    · rintro ⟨i, hi, hname⟩
      exact ⟨a, i + 1, ⟨by omega, hi⟩, hname, rfl⟩

/-- A condition that keeps all members or none can be put before or after the selection. -/
theorem select_filter {names : List Int} {members : List α} {keep : α → Bool}
    (h : ∀ a ∈ members, ∀ b ∈ members, keep a = keep b) :
    select names (members.filter keep) = (select names members).filter keep := by
  have hsub := (select_sublist names members).subset
  by_cases hkept : ∃ a ∈ members, keep a = true
  · obtain ⟨a, ha, hkeep⟩ := hkept
    have hall (b : α) (hb : b ∈ members) : keep b = true := (h b hb a ha).trans hkeep
    rw [List.filter_eq_self.mpr hall, List.filter_eq_self.mpr fun b hb => hall b (hsub hb)]
  · have hnone (b : α) (hb : b ∈ members) : ¬ keep b = true := fun hb' => hkept ⟨b, hb, hb'⟩
    rw [List.filter_eq_nil_iff.mpr hnone, select_nil,
      List.filter_eq_nil_iff.mpr fun b hb => hnone b (hsub hb)]

/-- The order and the repetitions of the numbers do not matter. -/
theorem select_eq_of_mem_iff {names others : List Int} (h : ∀ n, n ∈ names ↔ n ∈ others)
    (members : List α) : select names members = select others members := by
  simp only [select, Lists.isEmpty_eq_of_mem_iff h, Lists.any_eq_of_mem_iff h]

end Position
end Timetable
