import Timetable.Text.Letters
import Timetable.Text.Numeral
import Timetable.Text.Span

/-!
# Taking joined texts apart

A text that was put together from parts with a separator between them is cut into the same
parts again, as long as no part holds the separator: `chars_segments`, `chars_words`.  A
name and a value are divided again at the mark between them: `divideAt?_append_cons`.

The parts that rules and cron expressions are written with consist of visible characters of
ASCII.  None of these is blank, so trimming leaves the parts alone.
-/

namespace Timetable
namespace Text

/-! ## Characters -/

/-- Whether a character is one of ASCII that leaves a mark on paper. -/
def isVisible (c : Char) : Bool :=
  0x21 ≤ c.toNat && c.toNat ≤ 0x7e

theorem isVisible_of_isDigit {c : Char} (h : c.isDigit = true) : isVisible c = true := by
  have hbounds : 48 ≤ c.toNat ∧ c.toNat ≤ 57 := Char.isDigit_iff_toNat.mp h
  simp only [isVisible, Bool.and_eq_true, decide_eq_true_eq]
  omega

theorem isBlank_of_isVisible {c : Char} (h : isVisible c = true) : isBlank c = false := by
  simp only [isVisible, Bool.and_eq_true, decide_eq_true_eq] at h
  simp only [isBlank, blankRanges, List.any_cons, List.any_nil, Bool.or_false,
    Bool.or_eq_false_iff, Bool.and_eq_false_iff, decide_eq_false_iff_not]
  omega

/-- A digit is no mark that is not a digit itself. -/
theorem beq_of_isDigit {c m : Char} (hm : m.isDigit = false) (h : c.isDigit = true) :
    (c == m) = false := by
  rw [beq_eq_false_iff_ne]
  rintro rfl
  rw [hm] at h
  contradiction

theorem isDigit_eq_false_of_isUpper {c : Char} (h : c.isUpper = true) : c.isDigit = false := by
  rw [← Bool.not_eq_true]
  intro hdigit
  have hbounds : 48 ≤ c.toNat ∧ c.toNat ≤ 57 := Char.isDigit_iff_toNat.mp hdigit
  obtain ⟨hfirst, -⟩ : 'A'.val ≤ c.val ∧ c.val ≤ 'Z'.val := of_decide_eq_true h
  have hlarge : 65 ≤ c.toNat := hfirst
  omega

theorem toUpper_of_isDigit {c : Char} (h : c.isDigit = true) : c.toUpper = c := by
  have hbounds : 48 ≤ c.toNat ∧ c.toNat ≤ 57 := Char.isDigit_iff_toNat.mp h
  unfold Char.toUpper
  rw [dif_neg]
  rintro ⟨hle, -⟩
  have hsmall : 97 ≤ c.toNat := hle
  omega

theorem upper_eq_self {cs : List Char} (h : ∀ c ∈ cs, c.toUpper = c) : upper cs = cs :=
  (List.map_congr_left h).trans (List.map_id cs)

/-! ## Cutting -/

theorem trimLeft_eq_self {cs : List Char} (h : ∀ c ∈ cs, isBlank c = false) :
    trimLeft cs = cs := by
  cases cs with
  | nil => rfl
  | cons c cs =>
      exact List.dropWhile_cons_of_neg (by simp [h c List.mem_cons_self])

theorem trim_eq_self {cs : List Char} (h : ∀ c ∈ cs, isBlank c = false) : trim cs = cs := by
  have hreverse : ∀ c ∈ cs.reverse, isBlank c = false := by
    intro c hc
    exact h c (List.mem_reverse.mp hc)
  rw [trim, trimLeft_eq_self h, trimRight]
  show (trimLeft cs.reverse).reverse = cs
  rw [trimLeft_eq_self hreverse, List.reverse_reverse]

theorem mem_of_mem_trim {c : Char} {cs : List Char} (h : c ∈ trim cs) : c ∈ cs := by
  rw [trim, trimRight, List.mem_reverse] at h
  have hmem : c ∈ trimLeft cs := List.mem_reverse.mp ((List.dropWhile_sublist _).mem h)
  exact (List.dropWhile_sublist _).mem hmem

/-- A character that is not blank stays. -/
theorem mem_trim {c : Char} {cs : List Char} (hblank : isBlank c = false) (h : c ∈ cs) :
    c ∈ trim cs := by
  have hdrop {ds : List Char} (h : c ∈ ds) : c ∈ ds.dropWhile isBlank := by
    rw [← List.takeWhile_append_dropWhile (p := isBlank) (l := ds), List.mem_append] at h
    rcases h with htake | hmem
    · have htrue := List.all_eq_true.mp List.all_takeWhile c htake
      rw [hblank] at htrue
      contradiction
    · exact hmem
  rw [trim, trimRight, List.mem_reverse]
  exact hdrop (List.mem_reverse.mpr (hdrop h))

/-- The characters of the pieces, wherever they begin. -/
theorem chars_splitWhere (isMark : Char → Bool) (start : Nat) (cs : List Char) :
    (splitWhere isMark start cs).map Piece.chars = cs.splitOnP isMark := by
  induction cs generalizing start with
  | nil => rfl
  | cons c cs ih =>
      have hrest := ih (start + c.utf8Size)
      rw [splitWhere, List.splitOnP_cons_eq_if_modifyHead, ← hrest]
      by_cases hmark : isMark c = true
      · rw [if_pos hmark, if_pos hmark, List.map_cons]
      · rw [if_neg hmark, if_neg hmark]
        cases hpieces : splitWhere isMark (start + c.utf8Size) cs with
        | nil =>
            rw [hpieces] at hrest
            exact absurd hrest.symm (List.splitOnP_ne_nil isMark cs)
        | cons p ps => rfl

/-- Parts without marks that were joined by a mark are found again. -/
theorem splitOnP_intercalate {isMark : Char → Bool} {mark : Char} (hmark : isMark mark = true)
    {parts : List (List Char)} (hne : parts ≠ [])
    (h : ∀ part ∈ parts, ∀ c ∈ part, isMark c = false) :
    ([mark].intercalate parts).splitOnP isMark = parts := by
  induction parts with
  | nil => exact absurd rfl hne
  | cons part rest ih =>
      have hpart := h part List.mem_cons_self
      cases rest with
      | nil =>
          rw [List.intercalate_singleton]
          exact List.splitOnP_eq_singleton hpart
      | cons next rest =>
          have hrest := ih (List.cons_ne_nil _ _)
            fun p hp => h p (List.mem_cons_of_mem part hp)
          rw [List.intercalate_cons_cons, List.append_assoc, List.singleton_append,
            List.splitOnP_append_cons_of_forall_mem hpart mark hmark, hrest]

/-- Segments that were joined by semicolons are found again. -/
theorem chars_segments {start : Nat} {parts : List (List Char)} (hne : parts ≠ [])
    (h : ∀ part ∈ parts, ';' ∉ part) :
    (segments start ([';'].intercalate parts)).map Piece.chars = parts := by
  rw [segments, chars_splitWhere]
  exact List.splitOn_intercalate ';' h hne

/-- Words that were joined by spaces are found again. -/
theorem chars_words {parts : List (List Char)} (hne : ∀ part ∈ parts, part ≠ [])
    (h : ∀ part ∈ parts, ∀ c ∈ part, isBlank c = false) :
    (words ([' '].intercalate parts)).map Piece.chars = parts := by
  have hfilter (ps : List Piece) :
      (ps.filter fun p => !p.chars.isEmpty).map Piece.chars =
        (ps.map Piece.chars).filter fun part => !part.isEmpty := by
    rw [List.filter_map]
    rfl
  rw [words, hfilter, chars_splitWhere]
  cases parts with
  | nil => rfl
  | cons part rest =>
      rw [splitOnP_intercalate (by decide) (List.cons_ne_nil _ _) h, List.filter_eq_self]
      intro p hp
      simpa using hne p hp

/-- A text is divided at its first mark. -/
theorem divideAt?_append_cons {isMark : Char → Bool} {mark : Char}
    (hmark : isMark mark = true) {front : List Char}
    (hfront : ∀ c ∈ front, isMark c = false) (back : List Char) :
    divideAt? isMark (front ++ mark :: back) = some (front, back) := by
  induction front with
  | nil => rw [List.nil_append, divideAt?, if_pos hmark]
  | cons c front ih =>
      have hc := hfront c List.mem_cons_self
      have hrest := ih fun d hd => hfront d (List.mem_cons_of_mem c hd)
      rw [List.cons_append, divideAt?, if_neg (by simp [hc]), hrest]
      rfl

theorem divideAt?_eq_none {isMark : Char → Bool} {cs : List Char}
    (h : ∀ c ∈ cs, isMark c = false) : divideAt? isMark cs = none := by
  induction cs with
  | nil => rfl
  | cons c cs ih =>
      have hc := h c List.mem_cons_self
      rw [divideAt?, if_neg (by simp [hc]), ih fun d hd => h d (List.mem_cons_of_mem c hd)]
      rfl

/-- A text is divided where its first mark is, and only there. -/
theorem divideAt?_eq_some_iff {isMark : Char → Bool} {cs front back : List Char} :
    divideAt? isMark cs = some (front, back) ↔
      ∃ mark, isMark mark = true ∧ (∀ c ∈ front, isMark c = false) ∧
        cs = front ++ mark :: back := by
  constructor
  · intro h
    induction cs generalizing front with
    | nil => simp [divideAt?] at h
    | cons c cs ih =>
        by_cases hc : isMark c = true
        · rw [divideAt?, if_pos hc] at h
          obtain ⟨rfl, rfl⟩ := Prod.mk.inj (Option.some.inj h)
          exact ⟨c, hc, by simp, rfl⟩
        · rw [divideAt?, if_neg hc] at h
          obtain ⟨⟨front, rest⟩, hrest, hparts⟩ := Option.map_eq_some_iff.mp h
          obtain ⟨rfl, rfl⟩ := Prod.mk.inj hparts
          obtain ⟨mark, hmark, hfront, rfl⟩ := ih hrest
          exact ⟨mark, hmark, List.forall_mem_cons.mpr ⟨eq_false_of_ne_true hc, hfront⟩, rfl⟩
  · rintro ⟨mark, hmark, hfront, rfl⟩
    exact divideAt?_append_cons hmark hfront back

theorem divideAt?_eq_none_iff {isMark : Char → Bool} {cs : List Char} :
    divideAt? isMark cs = none ↔ ∀ c ∈ cs, isMark c = false := by
  refine ⟨fun h c hc => ?_, divideAt?_eq_none⟩
  induction cs with
  | nil => simp at hc
  | cons d cs ih =>
      by_cases hd : isMark d = true
      · simp [divideAt?, hd] at h
      · rw [divideAt?, if_neg hd, Option.map_eq_none_iff] at h
        rcases List.mem_cons.mp hc with rfl | hc
        · exact eq_false_of_ne_true hd
        · exact ih h hc

theorem forall_beq_eq_false_iff {mark : Char} {cs : List Char} :
    (∀ c ∈ cs, (c == mark) = false) ↔ mark ∉ cs := by
  simp only [beq_eq_false_iff_ne, ne_eq, List.forall_mem_ne']

theorem divideAt?_eq_none_of_not_mem {mark : Char} {cs : List Char} (h : mark ∉ cs) :
    divideAt? (· == mark) cs = none :=
  divideAt?_eq_none (forall_beq_eq_false_iff.mpr h)

theorem divideAt?_eq_some_of_not_mem {mark : Char} {cs : List Char} (h : mark ∉ cs)
    (ds : List Char) : divideAt? (· == mark) (cs ++ mark :: ds) = some (cs, ds) :=
  divideAt?_append_cons (by simp) (forall_beq_eq_false_iff.mpr h) ds

theorem eq_of_divideAt?_eq_some {mark : Char} {cs front back : List Char}
    (h : divideAt? (· == mark) cs = some (front, back)) : cs = front ++ mark :: back := by
  obtain ⟨mark', hmark, -, rfl⟩ := Text.divideAt?_eq_some_iff.mp h
  rw [beq_iff_eq.mp hmark]

/-- What holds of a separator and of all characters of the parts holds of the joined
text. -/
theorem forall_mem_intercalate {P : Char → Prop} {mark : Char} (hmark : P mark)
    {parts : List (List Char)} (h : ∀ part ∈ parts, ∀ c ∈ part, P c) :
    ∀ c ∈ [mark].intercalate parts, P c := by
  induction parts with
  | nil => simp
  | cons part rest ih =>
      have hpart := h part List.mem_cons_self
      have hrest := ih fun p hp => h p (List.mem_cons_of_mem part hp)
      cases rest with
      | nil =>
          rw [List.intercalate_singleton]
          exact hpart
      | cons next rest =>
          rw [List.intercalate_cons_cons]
          intro c hc
          simp only [List.append_assoc, List.mem_append, List.mem_singleton] at hc
          rcases hc with hc | rfl | hc
          · exact hpart c hc
          · exact hmark
          · exact hrest c hc

theorem mem_intercalate {mark c : Char} {part : List Char} {parts : List (List Char)}
    (hpart : part ∈ parts) (hc : c ∈ part) : c ∈ [mark].intercalate parts := by
  induction parts with
  | nil => simp at hpart
  | cons first rest ih =>
      cases rest with
      | nil =>
          rw [List.mem_singleton.mp hpart] at hc
          rwa [List.intercalate_singleton]
      | cons next rest =>
          rw [List.intercalate_cons_cons, List.mem_append]
          rcases List.mem_cons.mp hpart with rfl | hpart
          · exact .inl (List.mem_append_left _ hc)
          · exact .inr (ih hpart)

theorem intercalate_ne_nil {mark : Char} {parts : List (List Char)} (hne : parts ≠ [])
    (h : ∀ part ∈ parts, part ≠ []) : [mark].intercalate parts ≠ [] := by
  cases parts with
  | nil => exact absurd rfl hne
  | cons part rest =>
      have hpart := h part List.mem_cons_self
      cases rest with
      | nil => simpa using hpart
      | cons next rest => simp [List.intercalate_cons_cons]

/-! ## Numerals -/

theorem isDigit_of_mem_decimal {n : Nat} {c : Char} (h : c ∈ decimal n) : c.isDigit = true :=
  List.all_eq_true.mp (all_isDigit_decimal n) c h

theorem decimal_ne_nil (n : Nat) : decimal n ≠ [] :=
  Nat.toDigits_ne_nil

/-- A written number does not begin with a character that is no digit. -/
theorem decimal_ne_cons {c : Char} (hc : c.isDigit = false) (n : Nat) (cs : List Char) :
    decimal n ≠ c :: cs := by
  intro h
  have hdigit := isDigit_of_mem_decimal (h ▸ List.mem_cons_self : c ∈ decimal n)
  rw [hc] at hdigit
  contradiction

theorem unsigned?_decimal (bits n : Nat) :
    unsigned? bits (decimal n) = (some n).filter (· < Nat.pow 2 bits) := by
  unfold unsigned?
  dsimp only
  split
  next rest h => exact absurd h (decimal_ne_cons (by decide) n rest)
  next => rw [digits?_decimal]

@[simp] theorem signedDecimal_natCast (n : Nat) : signedDecimal (n : Int) = decimal n := by
  rw [signedDecimal, if_neg (by omega), Int.natAbs_natCast]

theorem signed?_signedDecimal (bits : Nat) (n : Int) :
    signed? bits (signedDecimal n) = (some n).filter fun n =>
      decide (-(Nat.pow 2 (bits - 1) : Int) ≤ n ∧ n < (Nat.pow 2 (bits - 1) : Int)) := by
  unfold signed? signedDecimal
  by_cases hneg : n < 0
  · have habs : -(n.natAbs : Int) = n := by omega
    rw [if_pos hneg]
    dsimp only
    split
    next rest h => simp at h
    next rest h =>
      rw [← (List.cons.inj h).2, digits?_decimal]
      exact congrArg (fun m => (some m).filter _) habs
    next h => exact absurd rfl (h _)
  · have habs : (n.natAbs : Int) = n := by omega
    rw [if_neg hneg]
    dsimp only
    split
    next rest h => exact absurd h (decimal_ne_cons (by decide) _ rest)
    next rest h => exact absurd h (decimal_ne_cons (by decide) _ rest)
    next =>
      rw [digits?_decimal]
      exact congrArg (fun m => (some m).filter _) habs

theorem eq_of_signed?_signedDecimal {bits : Nat} {n m : Int}
    (h : signed? bits (signedDecimal n) = some m) : m = n := by
  rw [signed?_signedDecimal, Option.filter_eq_some_iff, Option.some.injEq] at h
  exact h.1.symm

end Text
end Timetable
