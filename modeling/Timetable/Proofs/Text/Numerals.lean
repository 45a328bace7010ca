import Mathlib.Data.List.Induction
import Timetable.Proofs.Text.Joining

/-!
# Which texts are numbers

The texts of a number are its decimal digits with any number of zeros in front: `IsNumeral`.
With an optional plus they are `IsUnsigned`, with an optional plus or minus `IsSigned`.  The
three readers of numbers take exactly these texts, up to the bound on the value:
`digits?_eq_some_iff`, `unsigned?_eq_some_iff` and `signed?_eq_some_iff`.

Of a fixed number of digits a number has at most one text, the padded one:
`digits?_eq_some_iff_eq_padded`.
-/

namespace Timetable
namespace Text

variable {n : Nat} {cs : List Char}

/-- Whether a text shows a number in digits, with zeros in front or without. -/
def IsNumeral (n : Nat) (cs : List Char) : Prop :=
  ∃ zeros, cs = List.replicate zeros '0' ++ decimal n

/-- Whether a text shows a number, with a plus in front or without. -/
def IsUnsigned (n : Nat) (cs : List Char) : Prop :=
  IsNumeral n cs ∨ ∃ ds, cs = '+' :: ds ∧ IsNumeral n ds

/-- Whether a text shows a whole number, with a sign in front or without. -/
def IsSigned (z : Int) (cs : List Char) : Prop :=
  (∃ n : Nat, z = n ∧ IsUnsigned n cs) ∨
    ∃ (n : Nat) (ds : List Char), z = -(n : Int) ∧ cs = '-' :: ds ∧ IsNumeral n ds

/-! ## Digits -/

theorem digitChar_of_isDigit {c : Char} (h : c.isDigit = true) :
    c.toNat - '0'.toNat < 10 ∧ (c.toNat - '0'.toNat).digitChar = c := by
  have hbounds : 48 ≤ c.toNat ∧ c.toNat ≤ 57 := Char.isDigit_iff_toNat.mp h
  have hdigits : ∀ d < 10, Nat.digitChar d = Char.ofNat (48 + d) := by decide
  have hzero : '0'.toNat = 48 := rfl
  refine ⟨by omega, ?_⟩
  rw [hdigits _ (by omega), hzero, show 48 + (c.toNat - 48) = c.toNat by omega, Char.ofNat_toNat]

theorem isNumeral_digit {c : Char} (h : c.isDigit = true) :
    IsNumeral (c.toNat - '0'.toNat) [c] := by
  obtain ⟨hlt, hchar⟩ := digitChar_of_isDigit h
  refine ⟨0, ?_⟩
  rw [decimal, Nat.toDigits_of_lt_base hlt, hchar]
  rfl

/-- A further digit multiplies a number by ten and adds to it. -/
theorem IsNumeral.concat (h : IsNumeral n cs) {c : Char} (hc : c.isDigit = true) :
    IsNumeral (10 * n + (c.toNat - '0'.toNat)) (cs ++ [c]) := by
  obtain ⟨zeros, rfl⟩ := h
  obtain ⟨hlt, hchar⟩ := digitChar_of_isDigit hc
  have hlast : decimal (c.toNat - '0'.toNat) = [c] := by
    rw [decimal, Nat.toDigits_of_lt_base hlt, hchar]
  rcases Nat.eq_zero_or_pos n with rfl | hpos
  · -- The digit 0 becomes one of the zeros in front.
    refine ⟨zeros + 1, ?_⟩
    rw [Nat.mul_zero, Nat.zero_add, hlast, List.replicate_succ']
    rfl
  · have hmore : decimal (10 * n + (c.toNat - '0'.toNat)) = decimal n ++ [c] := by
      rw [← hlast]
      exact (Nat.toDigits_append_toDigits (by decide) hpos hlt).symm
    exact ⟨zeros, by rw [hmore, List.append_assoc]⟩

/-- Digits show the number that they are read as. -/
theorem isNumeral_ofDigitChars (hne : cs ≠ []) (h : ∀ c ∈ cs, c.isDigit = true) :
    IsNumeral (Nat.ofDigitChars 10 cs 0) cs := by
  induction cs using List.reverseRecOn with
  | nil => exact absurd rfl hne
  | append_singleton cs c ih =>
      have hc : c.isDigit = true := h c (by simp)
      rw [Nat.ofDigitChars_append, Nat.ofDigitChars_cons, Nat.ofDigitChars_nil]
      by_cases hcs : cs = []
      · subst hcs
        simpa using isNumeral_digit hc
      · exact (ih hcs fun d hd => h d (List.mem_append_left [c] hd)).concat hc

theorem IsNumeral.ne_nil (h : IsNumeral n cs) : cs ≠ [] := by
  obtain ⟨zeros, rfl⟩ := h
  exact List.append_ne_nil_of_right_ne_nil _ (decimal_ne_nil n)

theorem IsNumeral.isDigit (h : IsNumeral n cs) {c : Char} (hc : c ∈ cs) : c.isDigit = true := by
  obtain ⟨zeros, rfl⟩ := h
  rcases List.mem_append.mp hc with hc | hc
  · rw [List.eq_of_mem_replicate hc]
    decide
  · exact isDigit_of_mem_decimal hc

/-- The digits of a number are padded to their own width. -/
theorem IsNumeral.eq_padded (h : IsNumeral n cs) : cs = padded cs.length n := by
  obtain ⟨zeros, rfl⟩ := h
  rw [padded, List.length_append, List.length_replicate, Nat.add_sub_cancel]

theorem isNumeral_padded (width n : Nat) : IsNumeral n (padded width n) :=
  ⟨_, rfl⟩

/-- A number with an optional plus is written with digits and a plus. -/
theorem IsUnsigned.isDigit_or_eq (h : IsUnsigned n cs) {c : Char} (hc : c ∈ cs) :
    c.isDigit = true ∨ c = '+' := by
  rcases h with h | ⟨ds, rfl, h⟩
  · exact .inl (h.isDigit hc)
  · rcases List.mem_cons.mp hc with rfl | hc
    · exact .inr rfl
    · exact .inl (h.isDigit hc)

theorem IsUnsigned.exists_isDigit (h : IsUnsigned n cs) : ∃ c ∈ cs, c.isDigit = true := by
  rcases h with h | ⟨ds, rfl, h⟩
  · obtain ⟨c, hc⟩ := List.exists_mem_of_ne_nil cs h.ne_nil
    exact ⟨c, hc, h.isDigit hc⟩
  · obtain ⟨c, hc⟩ := List.exists_mem_of_ne_nil ds h.ne_nil
    exact ⟨c, List.mem_cons_of_mem _ hc, h.isDigit hc⟩

/-- A number with an optional sign is written with digits and signs. -/
theorem IsSigned.isDigit_or_eq {z : Int} (h : IsSigned z cs) {c : Char} (hc : c ∈ cs) :
    c.isDigit = true ∨ c = '+' ∨ c = '-' := by
  rcases h with ⟨n, -, h⟩ | ⟨n, ds, -, rfl, h⟩
  · rcases h.isDigit_or_eq hc with hdigit | rfl
    · exact .inl hdigit
    · exact .inr (.inl rfl)
  · rcases List.mem_cons.mp hc with rfl | hc
    · exact .inr (.inr rfl)
    · exact .inl (h.isDigit hc)

theorem IsSigned.ne_nil {z : Int} (h : IsSigned z cs) : cs ≠ [] := by
  rcases h with ⟨n, -, h⟩ | ⟨n, ds, -, rfl, -⟩
  · obtain ⟨c, hc, -⟩ := h.exists_isDigit
    exact List.ne_nil_of_mem hc
  · exact List.cons_ne_nil _ _

/-! ## Readers -/

/-- Digits are read as the number that they show, and nothing else is read. -/
theorem digits?_eq_some_iff : digits? cs = some n ↔ IsNumeral n cs := by
  constructor
  · intro h
    unfold digits? at h
    split at h
    next hdigits =>
      obtain rfl := Option.some.inj h
      exact isNumeral_ofDigitChars hdigits.1 (List.all_eq_true.mp hdigits.2)
    next => simp at h
  · intro h
    rw [h.eq_padded, digits?_padded]

/-- A text of a given width shows a number if and only if it is the padded text. -/
theorem digits?_eq_some_iff_eq_padded {width : Nat} (hpos : 0 < width)
    (hlength : cs.length = width) :
    digits? cs = some n ↔ cs = padded width n ∧ n < Nat.pow 10 width := by
  rw [digits?_eq_some_iff]
  constructor
  · intro h
    have hcs := h.eq_padded
    rw [hlength] at hcs
    refine ⟨hcs, (Nat.length_toDigits_le_iff (by decide) hpos).mp ?_⟩
    have hwidth := congrArg List.length hcs
    rw [hlength, padded, List.length_append] at hwidth
    exact hwidth ▸ Nat.le_add_left _ _
  · rintro ⟨rfl, -⟩
    exact isNumeral_padded width n

/-- A number with an optional plus is read if it needs no more binary digits than
allowed. -/
theorem unsigned?_eq_some_iff {bits : Nat} :
    unsigned? bits cs = some n ↔ IsUnsigned n cs ∧ n < Nat.pow 2 bits := by
  have hplus (ds : List Char) : ¬ IsNumeral n ('+' :: ds) := fun h =>
    absurd (h.isDigit List.mem_cons_self) (by decide)
  unfold unsigned?
  dsimp only
  rw [Option.filter_eq_some_iff, decide_eq_true_eq]
  apply and_congr_left'
  split
  next ds =>
    rw [digits?_eq_some_iff]
    simp [IsUnsigned, hplus]
  next hno =>
    rw [digits?_eq_some_iff, IsUnsigned, or_iff_left]
    rintro ⟨ds, rfl, -⟩
    exact hno ds rfl

/-- A number with an optional sign is read if it fits the binary digits. -/
theorem signed?_eq_some_iff {bits : Nat} {z : Int} :
    signed? bits cs = some z ↔
      IsSigned z cs ∧ -(Nat.pow 2 (bits - 1) : Int) ≤ z ∧ z < (Nat.pow 2 (bits - 1) : Int) := by
  -- No numeral begins with a sign, so a text with a sign is read in one way only.
  have hsign {n : Nat} {c : Char} (hc : c.isDigit = false) (ds : List Char) :
      ¬ IsNumeral n (c :: ds) := by
    intro h
    have hdigit := h.isDigit List.mem_cons_self
    rw [hc] at hdigit
    contradiction
  have hplus {n : Nat} (ds : List Char) := hsign (n := n) (c := '+') (by decide) ds
  have hminus {n : Nat} (ds : List Char) := hsign (n := n) (c := '-') (by decide) ds
  have hread (ds : List Char) (z : Int) :
      (do let n ← digits? ds; pure (n : Int)) = some z ↔ ∃ n : Nat, z = n ∧ IsNumeral n ds := by
    simp only [Option.bind_eq_bind, Option.bind_eq_some_iff, Option.pure_def, Option.some.injEq,
      digits?_eq_some_iff]
    constructor
    · rintro ⟨n, hn, rfl⟩
      exact ⟨n, rfl, hn⟩
    · rintro ⟨n, rfl, hn⟩
      exact ⟨n, hn, rfl⟩
  unfold signed?
  dsimp only
  rw [Option.filter_eq_some_iff, decide_eq_true_eq]
  apply and_congr_left'
  split
  next ds =>
    simp only [Option.map_eq_some_iff, hread, IsSigned, IsUnsigned, hplus]
    simp [and_comm, @eq_comm _ z]
  next ds =>
    simp only [Option.map_eq_some_iff, hread, IsSigned, IsUnsigned, hminus]
    simp [and_comm, @eq_comm _ z]
  next hnoplus hnominus =>
    simp only [Option.map_eq_some_iff, hread, IsSigned, IsUnsigned]
    constructor
    · rintro ⟨_, ⟨n, rfl, hn⟩, rfl⟩
      exact .inl ⟨n, rfl, .inl hn⟩
    · rintro (⟨n, rfl, hn | ⟨ds, rfl, -⟩⟩ | ⟨_, ds, -, rfl, -⟩)
      · exact ⟨n, ⟨n, rfl, hn⟩, rfl⟩
      · exact absurd rfl (hnoplus ds)
      · exact absurd rfl (hnominus ds)

end Text
end Timetable
