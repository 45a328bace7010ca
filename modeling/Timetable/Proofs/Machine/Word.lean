import Mathlib.Order.Basic

/-!
# Machine numbers

A machine holds whole numbers in words, and a word has room for the numbers from a least to a
greatest one only.  A computation with machine numbers breaks down when a result does not fit,
when it divides by zero, when a number is cast to a word in which it has no place, and when it
looks up a place that a list does not have.  A checked operation has no result instead.

The lemmas say of each operation when it does not break down, and what it gives then.
-/

namespace Timetable

/-- Why a computation with machine numbers breaks down. -/
inductive Breakdown where
  | overflow
  | divisionByZero
  | lossyCast
  | outOfBounds
  deriving DecidableEq

/-- A computation with machine numbers. -/
abbrev Machine (α : Type) : Type :=
  Except Breakdown α

/-- A word that holds the numbers from a least to a greatest one. -/
structure Word where
  least : Int
  greatest : Int

namespace Word

/-- The word of months and of days of a month. -/
def signed8 : Word := ⟨-128, 127⟩

/-- The word of years and of days of a year. -/
def signed16 : Word := ⟨-32768, 32767⟩

/-- The word of periods and of their distance from the start. -/
def signed64 : Word := ⟨-9223372036854775808, 9223372036854775807⟩

/-- The word of nanoseconds. -/
def signed128 : Word :=
  ⟨-170141183460469231731687303715884105728, 170141183460469231731687303715884105727⟩

/-- The word of weekdays and of listed times. -/
def unsigned8 : Word := ⟨0, 255⟩

/-- The word of counts. -/
def unsigned32 : Word := ⟨0, 4294967295⟩

/-- The word of lengths and places of lists. -/
def unsigned64 : Word := ⟨0, 18446744073709551615⟩

/-- Whether a word has room for a number. -/
def Holds (w : Word) (n : Int) : Prop :=
  w.least ≤ n ∧ n ≤ w.greatest

instance (w : Word) (n : Int) : Decidable (w.Holds n) :=
  inferInstanceAs (Decidable (_ ∧ _))

/-! ## Operations -/

/-- The result of a checked operation. -/
def fit? (w : Word) (n : Int) : Option Int :=
  if w.Holds n then some n else none

/-- The result of an operation. -/
def fit (w : Word) (n : Int) : Machine Int :=
  if w.Holds n then .ok n else .error .overflow

/-- Cast a number to a word. -/
def cast (w : Word) (n : Int) : Machine Int :=
  if w.Holds n then .ok n else .error .lossyCast

/-- The sum.  It breaks down if the word has no room for it. -/
def add (w : Word) (a b : Int) : Machine Int :=
  w.fit (a + b)

/-- The difference.  It breaks down if the word has no room for it. -/
def sub (w : Word) (a b : Int) : Machine Int :=
  w.fit (a - b)

/-- The product.  It breaks down if the word has no room for it. -/
def mul (w : Word) (a b : Int) : Machine Int :=
  w.fit (a * b)

/-- The quotient, rounded towards zero. -/
def quot (w : Word) (a b : Int) : Machine Int :=
  if b = 0 then .error .divisionByZero else w.fit (a.tdiv b)

/-- The remainder of `quot`.  It breaks down when the quotient does. -/
def rem (w : Word) (a b : Int) : Machine Int :=
  if b = 0 then .error .divisionByZero
  else if w.Holds (a.tdiv b) then .ok (a.tmod b) else .error .overflow

/-- The remainder that is not negative. -/
def remEuclid (w : Word) (a b : Int) : Machine Int :=
  if b = 0 then .error .divisionByZero
  else if w.Holds (a.tdiv b) then .ok (a % b) else .error .overflow

variable {w : Word} {a b n : Int}

theorem fit?_of_holds (h : w.Holds n) : w.fit? n = some n :=
  if_pos h

theorem fit?_of_not_holds (h : ¬ w.Holds n) : w.fit? n = none :=
  if_neg h

theorem fit?_eq_some_iff {m : Int} : w.fit? n = some m ↔ w.Holds n ∧ m = n := by
  rw [fit?, Option.ite_none_right_eq_some, Option.some.injEq, eq_comm (a := n)]

theorem fit_of_holds (h : w.Holds n) : w.fit n = pure n :=
  if_pos h

theorem fit_eq_ok_iff {m : Int} : w.fit n = .ok m ↔ w.Holds n ∧ m = n := by
  unfold fit
  split <;> simp_all [eq_comm]

theorem cast_of_holds (h : w.Holds n) : w.cast n = pure n :=
  if_pos h

theorem add_of_holds (h : w.Holds (a + b)) : w.add a b = pure (a + b) :=
  fit_of_holds h

theorem sub_of_holds (h : w.Holds (a - b)) : w.sub a b = pure (a - b) :=
  fit_of_holds h

theorem mul_of_holds (h : w.Holds (a * b)) : w.mul a b = pure (a * b) :=
  fit_of_holds h

/-- A quotient is not farther from zero than what is divided. -/
theorem holds_tdiv (bound : Nat) (hleast : w.least ≤ -bound) (hgreatest : bound ≤ w.greatest)
    (hbound : a.natAbs ≤ bound) (b : Int) : w.Holds (a.tdiv b) := by
  have hquot := Int.natAbs_tdiv_le_natAbs a b
  constructor <;> omega

private theorem holds_div_natCast {a : Nat} (hleast : w.least ≤ 0) (ha : (a : Int) ≤ w.greatest)
    (b : Nat) : w.Holds ((a / b : Nat) : Int) := by
  have hle := Nat.div_le_self a b
  generalize a / b = quotient at hle
  constructor <;> omega

theorem quot_natCast {a b : Nat} (hb : 0 < b) (hleast : w.least ≤ 0)
    (ha : (a : Int) ≤ w.greatest) : w.quot a b = pure ((a / b : Nat) : Int) := by
  rw [quot, if_neg (by omega), ← Int.ofNat_tdiv, fit_of_holds (holds_div_natCast hleast ha b)]

theorem rem_natCast {a b : Nat} (hb : 0 < b) (hleast : w.least ≤ 0)
    (ha : (a : Int) ≤ w.greatest) : w.rem a b = pure ((a % b : Nat) : Int) := by
  rw [rem, if_neg (by omega), ← Int.ofNat_tdiv, if_pos (holds_div_natCast hleast ha b),
    Int.ofNat_tmod]
  rfl

theorem eq_tmod_of_rem_eq_ok {c : Int} (h : w.rem a b = .ok c) : c = a.tmod b := by
  unfold rem at h
  split at h
  · contradiction
  split at h
  · exact (Except.ok.inj h).symm
  · contradiction

theorem remEuclid_of_holds (hb : b ≠ 0) (h : w.Holds (a.tdiv b)) :
    w.remEuclid a b = pure (a % b) := by
  rw [remEuclid, if_neg hb, if_pos h]
  rfl

theorem holds_signed8_iff : signed8.Holds n ↔ -128 ≤ n ∧ n ≤ 127 :=
  Iff.rfl

theorem holds_signed16_iff : signed16.Holds n ↔ -32768 ≤ n ∧ n ≤ 32767 :=
  Iff.rfl

theorem holds_signed64_iff :
    signed64.Holds n ↔ -9223372036854775808 ≤ n ∧ n ≤ 9223372036854775807 :=
  Iff.rfl

theorem holds_signed128_iff :
    signed128.Holds n ↔ -170141183460469231731687303715884105728 ≤ n ∧
      n ≤ 170141183460469231731687303715884105727 :=
  Iff.rfl

theorem holds_unsigned8_iff : unsigned8.Holds n ↔ 0 ≤ n ∧ n ≤ 255 :=
  Iff.rfl

theorem holds_unsigned32_iff : unsigned32.Holds n ↔ 0 ≤ n ∧ n ≤ 4294967295 :=
  Iff.rfl

theorem holds_unsigned64_iff : unsigned64.Holds n ↔ 0 ≤ n ∧ n ≤ 18446744073709551615 :=
  Iff.rfl

end Word

/-! ## Lists -/

namespace Machine

variable {α β : Type}

/-- Look up a place in a list. -/
def lookUp (members : List α) (place : Int) : Machine α :=
  match members[place.toNat]? with
  | some a => .ok a
  | none => .error .outOfBounds

/-- Whether a computation does not break down and gives a list of all that a condition holds
of, and of nothing else. -/
def Gathers (x : Machine (List α)) (P : α → Prop) : Prop :=
  ∃ l, x = pure l ∧ ∀ a, a ∈ l ↔ P a

variable {l : List α}

theorem anyM_of_forall_mem {p : α → Machine Bool} {q : α → Bool}
    (h : ∀ a ∈ l, p a = pure (q a)) : l.anyM p = pure (l.any q) := by
  induction l with
  | nil => rfl
  | cons a l ih =>
      obtain ⟨ha, hl⟩ := List.forall_mem_cons.mp h
      rw [List.anyM, ha, pure_bind, List.any_cons, ih hl]
      cases q a <;> rfl

theorem mapM_of_forall_mem {f : α → Machine β} {g : α → β} (h : ∀ a ∈ l, f a = pure (g a)) :
    l.mapM f = pure (l.map g) := by
  induction l with
  | nil => rfl
  | cons a l ih =>
      obtain ⟨ha, hl⟩ := List.forall_mem_cons.mp h
      rw [List.mapM_cons, ha, ih hl]
      rfl

private theorem filterAuxM_of_forall_mem {p : α → Machine Bool} {q : α → Bool}
    (h : ∀ a ∈ l, p a = pure (q a)) (acc : List α) :
    l.filterAuxM p acc = pure ((l.filter q).reverse ++ acc) := by
  induction l generalizing acc with
  | nil => rfl
  | cons a l ih =>
      obtain ⟨ha, hl⟩ := List.forall_mem_cons.mp h
      rw [List.filterAuxM, ha, pure_bind, ih hl]
      cases hq : q a <;> simp [hq]

theorem filterM_of_forall_mem {p : α → Machine Bool} {q : α → Bool}
    (h : ∀ a ∈ l, p a = pure (q a)) : l.filterM p = pure (l.filter q) := by
  rw [List.filterM, filterAuxM_of_forall_mem h, pure_bind, List.append_nil, List.reverse_reverse]

theorem findSomeM?_of_forall_mem {f : α → Machine (Option β)} {g : α → Option β}
    (h : ∀ a ∈ l, f a = pure (g a)) : l.findSomeM? f = pure (l.findSome? g) := by
  induction l with
  | nil => rfl
  | cons a l ih =>
      obtain ⟨ha, hl⟩ := List.forall_mem_cons.mp h
      rw [List.findSomeM?, ha, pure_bind, List.findSome?_cons, ih hl]
      cases g a <;> rfl

theorem gathers_pure {P : α → Prop} (h : ∀ a, a ∈ l ↔ P a) : Gathers (pure l) P :=
  ⟨l, rfl, h⟩

theorem Gathers.congr {x : Machine (List α)} {P Q : α → Prop} (h : Gathers x P)
    (hiff : ∀ a, P a ↔ Q a) : Gathers x Q := by
  obtain ⟨l, hl, hmem⟩ := h
  exact ⟨l, hl, fun a => (hmem a).trans (hiff a)⟩

/-- What is gathered for the members of a list, one after the other. -/
theorem gathers_flatMapM {f : α → Machine (List β)} {P : α → β → Prop}
    (h : ∀ a ∈ l, Gathers (f a) (P a)) : Gathers (l.flatMapM f) fun b => ∃ a ∈ l, P a b := by
  induction l with
  | nil =>
      rw [List.flatMapM_nil]
      exact gathers_pure (by simp)
  | cons a l ih =>
      obtain ⟨ha, hl⟩ := List.forall_mem_cons.mp h
      obtain ⟨bs, hbs, hmem⟩ := ha
      obtain ⟨rest, hrest, hmem'⟩ := ih hl
      rw [List.flatMapM_cons, hbs, hrest]
      refine gathers_pure fun b => ?_
      simp only [List.mem_append, List.mem_cons, exists_eq_or_imp, hmem, hmem']

theorem Gathers.filterM {x : Machine (List α)} {P : α → Prop} (h : Gathers x P)
    {p : α → Machine Bool} {q : α → Bool} (hp : ∀ a, p a = pure (q a)) :
    Gathers (do (← x).filterM p) fun a => P a ∧ q a = true := by
  obtain ⟨l, rfl, hmem⟩ := h
  rw [pure_bind, filterM_of_forall_mem fun a _ => hp a]
  exact gathers_pure fun a => by rw [List.mem_filter, hmem]

end Machine
end Timetable
