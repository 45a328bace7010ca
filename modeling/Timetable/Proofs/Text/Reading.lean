import Mathlib.Data.List.Forall2

/-!
# Reading one after the other

A reader gives `Except.ok` or the first fault.  These lemmas take apart what a reader gave
without a fault, and what it gave with one: everything in front of the fault was read.
-/

namespace Timetable

variable {ε ε' α β : Type}

theorem mapError_eq_ok_iff {x : Except ε α} {f : ε → ε'} {a : α} :
    x.mapError f = .ok a ↔ x = .ok a := by
  cases x <;> simp [Except.mapError]

theorem map_eq_ok_iff {x : Except ε α} {f : α → β} {b : β} :
    x.map f = .ok b ↔ ∃ a, x = .ok a ∧ f a = b := by
  cases x <;> simp [Except.map]

theorem bind_eq_ok_iff {x : Except ε α} {f : α → Except ε β} {b : β} :
    x >>= f = .ok b ↔ ∃ a, x = .ok a ∧ f a = .ok b := by
  cases x with
  | error e => simp [bind, Except.bind]
  | ok a => simp [bind, Except.bind]

theorem pure_eq_ok_iff {a b : α} : (pure a : Except ε α) = .ok b ↔ a = b := by
  simp [pure, Except.pure]

theorem throw_ne_ok {e : ε} {a : α} : (throw e : Except ε α) ≠ .ok a := by
  simp [throw, throwThe, MonadExceptOf.throw]

/-- Reading one after the other gives what each one gives. -/
theorem mapM_eq_ok_iff_forall₂ {f : α → Except ε β} {as : List α} {bs : List β} :
    as.mapM f = .ok bs ↔ List.Forall₂ (fun a b => f a = .ok b) as bs := by
  constructor
  · intro h
    induction as generalizing bs with
    | nil =>
        rw [List.mapM_nil, pure_eq_ok_iff] at h
        rw [← h]
        exact List.Forall₂.nil
    | cons a as ih =>
        rw [List.mapM_cons] at h
        obtain ⟨b, hb, h⟩ := bind_eq_ok_iff.mp h
        obtain ⟨rest, hrest, h⟩ := bind_eq_ok_iff.mp h
        rw [pure_eq_ok_iff] at h
        rw [← h]
        exact List.Forall₂.cons hb (ih hrest)
  · intro h
    induction h with
    | nil => rfl
    | cons hb _ ih =>
        rw [List.mapM_cons, hb, ih]
        rfl

/-- Reading one after the other, where it is known what each one gives. -/
theorem mapM_eq_ok_iff_of_iff {f : α → Except ε β} {R : α → β → Prop}
    (h : ∀ a b, f a = .ok b ↔ R a b) {as : List α} {bs : List β} :
    as.mapM f = .ok bs ↔ List.Forall₂ R as bs := by
  rw [mapM_eq_ok_iff_forall₂]
  simp only [h]

/-- A list is related to some list if each of its members is related to something. -/
theorem exists_forall₂_iff {R : α → β → Prop} {as : List α} :
    (∃ bs, List.Forall₂ R as bs) ↔ ∀ a ∈ as, ∃ b, R a b := by
  induction as with
  | nil => simp
  | cons a as ih => simp [List.forall₂_cons_left_iff, ← ih]

/-- Two lists are related by way of a third one if and only if their members are. -/
theorem exists_forall₂_and_forall₂_iff {γ : Type} {R : α → β → Prop} {S : β → γ → Prop}
    {as : List α} {cs : List γ} :
    (∃ bs, List.Forall₂ R as bs ∧ List.Forall₂ S bs cs) ↔
      List.Forall₂ (fun a c => ∃ b, R a b ∧ S b c) as cs := by
  constructor
  · intro h
    obtain ⟨bs, hR, hS⟩ := h
    induction hR generalizing cs with
    | nil =>
        cases hS
        exact .nil
    | cons hab _ ih =>
        cases hS with
        | cons hbc hS => exact .cons ⟨_, hab, hbc⟩ (ih hS)
  · intro h
    induction h with
    | nil => exact ⟨[], .nil, .nil⟩
    | cons hac _ ih =>
        obtain ⟨b, hab, hbc⟩ := hac
        obtain ⟨bs, hR, hS⟩ := ih
        exact ⟨b :: bs, .cons hab hR, .cons hbc hS⟩

/-- Whatever was read was read from something. -/
theorem exists_of_forall₂ {R : α → β → Prop} {as : List α} {bs : List β}
    (h : List.Forall₂ R as bs) {b : β} (hb : b ∈ bs) : ∃ a ∈ as, R a b := by
  induction h with
  | nil => simp at hb
  | cons hab _ ih =>
      rcases List.mem_cons.mp hb with rfl | hb
      · exact ⟨_, List.mem_cons_self, hab⟩
      · obtain ⟨a, ha, hab⟩ := ih hb
        exact ⟨a, List.mem_cons_of_mem _ ha, hab⟩

/-- A list that was written item by item is read back if what is asked of an item holds of
all of them. -/
theorem mapM_map_eq_ok_iff {write : α → β} {read : β → Except ε α} {P : α → Prop}
    {as bs : List α} (h : ∀ a ∈ as, ∀ b, read (write a) = .ok b ↔ P a ∧ b = a) :
    (as.map write).mapM read = .ok bs ↔ (∀ a ∈ as, P a) ∧ bs = as := by
  induction as generalizing bs with
  | nil =>
      rw [List.map_nil, List.mapM_nil, pure_eq_ok_iff]
      simp [eq_comm]
  | cons a as ih =>
      have hrest (bs : List α) := @ih bs fun a' ha' => h a' (List.mem_cons_of_mem a ha')
      simp only [List.map_cons, List.mapM_cons, bind_eq_ok_iff, pure_eq_ok_iff,
        h a List.mem_cons_self, hrest, List.forall_mem_cons]
      constructor
      · rintro ⟨_, ⟨ha, rfl⟩, _, ⟨has, rfl⟩, rfl⟩
        exact ⟨⟨ha, has⟩, rfl⟩
      · rintro ⟨⟨ha, has⟩, rfl⟩
        exact ⟨a, ⟨ha, rfl⟩, as, ⟨has, rfl⟩, rfl⟩

/-! ## With a fault -/

theorem mapError_eq_error_iff {x : Except ε α} {f : ε → ε'} {e' : ε'} :
    x.mapError f = .error e' ↔ ∃ e, x = .error e ∧ f e = e' := by
  cases x <;> simp [Except.mapError]

theorem bind_eq_error_iff {x : Except ε α} {f : α → Except ε β} {e : ε} :
    x >>= f = .error e ↔ x = .error e ∨ ∃ a, x = .ok a ∧ f a = .error e := by
  cases x with
  | error e' => simp [bind, Except.bind]
  | ok a => simp [bind, Except.bind]

/-- A fault is that of the first member that is not read. -/
theorem exists_of_mapM_eq_error {f : α → Except ε β} {as : List α} {e : ε}
    (h : as.mapM f = .error e) :
    ∃ before a after, as = before ++ a :: after ∧ (∀ b ∈ before, ∃ r, f b = .ok r) ∧
      f a = .error e := by
  induction as with
  | nil => simp [pure, Except.pure] at h
  | cons a as ih =>
      rw [List.mapM_cons] at h
      rcases bind_eq_error_iff.mp h with ha | ⟨r, hr, h⟩
      · exact ⟨[], a, as, rfl, by simp, ha⟩
      · rcases bind_eq_error_iff.mp h with hrest | ⟨rs, -, h⟩
        · obtain ⟨before, b, after, rfl, hbefore, hb⟩ := ih hrest
          exact ⟨a :: before, b, after, rfl, List.forall_mem_cons.mpr ⟨⟨r, hr⟩, hbefore⟩, hb⟩
        · simp [pure, Except.pure] at h

/-- A fault is that of the first member that cannot be taken in. -/
theorem exists_of_foldlM_eq_error {f : β → α → Except ε β} {as : List α} {acc : β} {e : ε}
    (h : as.foldlM f acc = .error e) :
    ∃ before a after mid, as = before ++ a :: after ∧ before.foldlM f acc = .ok mid ∧
      f mid a = .error e := by
  induction as generalizing acc with
  | nil => simp [pure, Except.pure] at h
  | cons a as ih =>
      rw [List.foldlM_cons] at h
      rcases bind_eq_error_iff.mp h with ha | ⟨next, hnext, h⟩
      · exact ⟨[], a, as, acc, rfl, rfl, ha⟩
      · obtain ⟨before, b, after, mid, rfl, hbefore, hb⟩ := ih h
        refine ⟨a :: before, b, after, mid, rfl, ?_, hb⟩
        rw [List.foldlM_cons]
        exact bind_eq_ok_iff.mpr ⟨next, hnext, hbefore⟩

/-- A list is divided at a member where the list that was read from it is. -/
theorem exists_of_forall₂_append_cons {R : α → β → Prop} {as : List α} {before after : List β}
    {b : β} (h : List.Forall₂ R as (before ++ b :: after)) :
    ∃ before' a after', as = before' ++ a :: after' ∧ List.Forall₂ R before' before ∧ R a b ∧
      List.Forall₂ R after' after := by
  have htake := List.forall₂_take_append as before (b :: after) h
  have hdrop := List.forall₂_drop_append as before (b :: after) h
  obtain ⟨a, after', hab, hafter, hback⟩ := List.forall₂_cons_right_iff.mp hdrop
  exact ⟨_, a, after', by rw [← hback, List.take_append_drop], htake, hab, hafter⟩

end Timetable
