import Mathlib.Data.List.Pairwise
import Mathlib.Order.Lattice

/-!
# Searching and cutting lists

Lemmas about lists in order, which say when a search finds the least member and when a cut
keeps all the members that pass a test or all from one on, about lists without repetitions,
and about lists with the same members.
-/

namespace Timetable
namespace Lists

/-- A search by a name that no two members share finds the member with the name. -/
theorem find?_beq_eq_some_iff {α β : Type} [BEq β] [LawfulBEq β] {name : α → β} {l : List α}
    (h : ∀ a, l.find? (fun x => name x == name a) = some a) {a : α} {b : β} :
    l.find? (fun x => name x == b) = some a ↔ name a = b := by
  constructor
  · intro hfound
    have hname := List.find?_some hfound
    exact beq_iff_eq.mp hname
  · intro hname
    rw [← hname]
    exact h a

/-- What is dropped before a search without a result does not change the search. -/
theorem findSome?_filter {α β : Type} {p : α → Bool} {f : α → Option β} {l : List α}
    (h : ∀ a ∈ l, p a = false → f a = none) : (l.filter p).findSome? f = l.findSome? f := by
  induction l with
  | nil => rfl
  | cons a l ih =>
      have hl := ih fun b hb => h b (List.mem_cons_of_mem a hb)
      by_cases ha : p a = true
      · rw [List.filter_cons_of_pos ha, List.findSome?_cons, List.findSome?_cons, hl]
      · have hnone := h a List.mem_cons_self (eq_false_of_ne_true ha)
        rw [List.filter_cons_of_neg ha, List.findSome?_cons, hnone, hl]

/-- Of the members of a list in order that are wanted the first one comes before the others. -/
theorem eq_or_rel_of_find?_eq_some {α : Type} {before : α → α → Prop} {p : α → Bool} {l : List α}
    {a b : α} (hl : l.Pairwise before) (h : l.find? p = some a) (hb : b ∈ l) (hp : p b = true) :
    a = b ∨ before a b := by
  obtain ⟨-, front, back, rfl, hfront⟩ := List.find?_eq_some_iff_append.mp h
  rw [List.mem_append, List.mem_cons] at hb
  rcases hb with hb | rfl | hb
  · -- nothing in front of the first one is wanted
    have hrefused := hfront b hb
    simp [hp] at hrefused
  · exact .inl rfl
  · have hback := (List.pairwise_append.mp hl).2.1
    exact .inr ((List.pairwise_cons.mp hback).1 b hb)

/-- The first member of an ascending list that is wanted is the least one. -/
theorem le_of_find?_eq_some {p : Nat → Bool} {l : List Nat} {a b : Nat}
    (hl : l.Pairwise (· < ·)) (h : l.find? p = some a) (hb : b ∈ l) (hp : p b = true) :
    a ≤ b := by
  rcases eq_or_rel_of_find?_eq_some hl h hb hp with heq | hlt
  · exact Nat.le_of_eq heq
  · exact Nat.le_of_lt hlt

/-- What holds of no member after one of which it does not hold selects the first
members. -/
theorem takeWhile_eq_filter {α : Type} {b : α → Bool} {l : List α}
    (h : l.Pairwise fun x y => b y = true → b x = true) : l.takeWhile b = l.filter b := by
  induction l with
  | nil => rfl
  | cons x l ih =>
      obtain ⟨hx, hl⟩ := List.pairwise_cons.mp h
      by_cases hb : b x = true
      · rw [List.takeWhile_cons_of_pos hb, List.filter_cons_of_pos hb, ih hl]
      · rw [List.takeWhile_cons_of_neg hb, List.filter_cons_of_neg hb, eq_comm,
          List.filter_eq_nil_iff]
        intro y hy hby
        exact hb (hx y hy hby)

/-- A condition that selects first members selects the same ones before and after a cut. -/
theorem filter_take {α : Type} {b : α → Bool} {l : List α} {n : Nat}
    (h : l.Pairwise fun x y => b y = true → b x = true) :
    (l.take n).filter b = (l.filter b).take n := by
  induction l generalizing n with
  | nil => simp
  | cons x l ih =>
      obtain ⟨hx, hl⟩ := List.pairwise_cons.mp h
      cases n with
      | zero => rfl
      | succ n =>
          by_cases hb : b x = true
          · rw [List.take_succ_cons, List.filter_cons_of_pos hb, List.filter_cons_of_pos hb,
              List.take_succ_cons, ih hl]
          · have hnone : l.filter b = [] := by
              rw [List.filter_eq_nil_iff]
              intro y hy hby
              exact hb (hx y hy hby)
            rw [List.take_succ_cons, List.filter_cons_of_neg hb, List.filter_cons_of_neg hb,
              ih hl, hnone, List.take_nil, List.take_nil]

/-- In an ascending list the members from one on are those that are not less. -/
theorem filter_le_eq_drop {α : Type} [LinearOrder α] {l : List α} {a : α} {k : Nat}
    (hl : l.Pairwise (· < ·)) (hk : l[k]? = some a) : l.filter (a ≤ ·) = l.drop k := by
  induction l generalizing k with
  | nil => simp at hk
  | cons x l ih =>
      obtain ⟨hx, hrest⟩ := List.pairwise_cons.mp hl
      cases k with
      | zero =>
          obtain rfl : x = a := by simpa using hk
          rw [List.drop_zero, List.filter_eq_self]
          intro y hy
          rcases List.mem_cons.mp hy with rfl | hy
          · exact decide_eq_true (le_refl y)
          · exact decide_eq_true (le_of_lt (hx y hy))
      | succ k =>
          rw [List.getElem?_cons_succ] at hk
          have hxa : ¬ a ≤ x := not_le_of_gt (hx a (List.mem_of_getElem? hk))
          rw [List.drop_succ_cons, List.filter_cons_of_neg (by simpa using hxa), ih hrest hk]

/-- An ascending list begins with a member to which all others are not less. -/
theorem head?_eq_some_of_forall_le {α : Type} [LinearOrder α] {l : List α} {a : α}
    (hl : l.Pairwise (· < ·)) (ha : a ∈ l) (hle : ∀ b ∈ l, a ≤ b) : l.head? = some a := by
  cases l with
  | nil => simp at ha
  | cons b l =>
      rcases List.mem_cons.mp ha with rfl | hrest
      · rfl
      · have hlt := (List.pairwise_cons.mp hl).1 a hrest
        exact absurd hlt (not_lt_of_ge (hle b List.mem_cons_self))

/-- A condition on lists is one on their members if it comes to the same for those that are
kept. -/
theorem filter_flatMap_filter {α β : Type} {f : α → List β} {b : α → Bool}
    {c d : β → Bool} {l : List α}
    (h : ∀ a ∈ l, ∀ x ∈ f a, c x = true → b a = d x) :
    ((l.filter b).flatMap f).filter c = (l.flatMap f).filter fun x => c x && d x := by
  induction l with
  | nil => rfl
  | cons a l ih =>
      have hrest := ih fun a' ha' => h a' (List.mem_cons_of_mem a ha')
      have hfirst := h a List.mem_cons_self
      rw [List.flatMap_cons, List.filter_append, ← hrest]
      by_cases hb : b a = true
      · rw [List.filter_cons_of_pos hb, List.flatMap_cons, List.filter_append]
        congr 1
        apply List.filter_congr
        intro x hx
        cases hc : c x with
        | false => rfl
        | true => rw [← hfirst x hx hc, hb, Bool.and_self]
      · rw [List.filter_cons_of_neg hb]
        have hnone : (f a).filter (fun x => c x && d x) = [] := by
          rw [List.filter_eq_nil_iff]
          intro x hx hcd
          rw [Bool.and_eq_true] at hcd
          exact hb ((hfirst x hx hcd.1).trans hcd.2)
        rw [hnone, List.nil_append]

/-- A range of numbers that give nothing gives nothing. -/
theorem flatMap_range'_eq_nil {α : Type} {f : Nat → List α} {k n : Nat}
    (h : ∀ j, k ≤ j → j < k + n → f j = []) : (List.range' k n).flatMap f = [] := by
  rw [List.flatMap_eq_nil_iff]
  intro j hj
  rw [List.mem_range'_1] at hj
  exact h j hj.1 hj.2

/-- What is not left out is there. -/
theorem ite_eq_of_ne_nil {α : Type} {p : Prop} [Decidable p] {l : List α}
    (h : (if p then [] else l) ≠ []) : (if p then [] else l) = l :=
  if_neg fun hp => h (if_pos hp)

theorem nodup_eraseDups {α : Type} [DecidableEq α] (l : List α) : l.eraseDups.Nodup := by
  -- The rest is cleared of the first member before its own repetitions are erased.
  cases l with
  | nil => exact List.nodup_nil
  | cons a l =>
      rw [List.eraseDups_cons, List.nodup_cons]
      constructor
      · simp [List.mem_eraseDups]
      · exact nodup_eraseDups (l.filter fun b => !b == a)
termination_by l.length
decreasing_by
  have hle := List.length_filter_le (fun b => !b == a) l
  rw [List.length_cons]
  omega

theorem eraseDups_eq_self {α : Type} [DecidableEq α] {l : List α} (h : l.Nodup) :
    l.eraseDups = l := by
  induction l with
  | nil => rfl
  | cons a l ih =>
      obtain ⟨hnot, hl⟩ := List.nodup_cons.mp h
      have hkeep : l.filter (fun b => !b == a) = l := by
        rw [List.filter_eq_self]
        intro b hb
        rw [Bool.not_eq_true', beq_eq_false_iff_ne]
        rintro rfl
        exact hnot hb
      rw [List.eraseDups_cons, hkeep, ih hl]

/-! ## Lists with the same members -/

theorem isEmpty_eq_of_mem_iff {α : Type} {l m : List α} (h : ∀ a, a ∈ l ↔ a ∈ m) :
    l.isEmpty = m.isEmpty := by
  rw [Bool.eq_iff_iff, List.isEmpty_iff, List.isEmpty_iff, List.eq_nil_iff_forall_not_mem,
    List.eq_nil_iff_forall_not_mem]
  exact forall_congr' fun a => not_congr (h a)

theorem any_eq_of_mem_iff {α : Type} {l m : List α} (h : ∀ a, a ∈ l ↔ a ∈ m)
    (b : α → Bool) : l.any b = m.any b := by
  rw [Bool.eq_iff_iff, List.any_eq_true, List.any_eq_true]
  exact exists_congr fun a => and_congr_left fun _ => h a

theorem contains_eq_of_mem_iff {α : Type} [BEq α] [LawfulBEq α] {l m : List α}
    (h : ∀ a, a ∈ l ↔ a ∈ m) (a : α) : l.contains a = m.contains a := by
  rw [Bool.eq_iff_iff, List.contains_iff_mem, List.contains_iff_mem]
  exact h a

end Lists
end Timetable
