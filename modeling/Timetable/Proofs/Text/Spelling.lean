import Mathlib.Data.List.TakeWhile
import Timetable.Proofs.Text.Numerals

/-!
# Letters in either case and blanks around parts

A text can be spelled in capitals or in small letters, and with more or fewer blanks around
its parts.  Cutting a text, trimming the parts and reading numbers come to the same in
capitals: `trim_upper`, `items_upper`, `isSigned_upper_iff`.  Blanks at the ends of a text
change neither the trimmed text nor its trimmed items: `trim_blank_append`,
`trim_append_blank`, `map_trim_items_trim`.
-/

namespace Timetable
namespace Text

variable {cs ds bs : List Char} {c m : Char}

/-! ## Letters -/

/-- A small letter has a capital; every other character stands for itself. -/
theorem toUpper_cases (c : Char) :
    c.toUpper = c ∨ 97 ≤ c.toNat ∧ c.toNat ≤ 122 ∧ c.toUpper.toNat + 32 = c.toNat := by
  by_cases h : 'a'.val ≤ c.val ∧ c.val ≤ 'z'.val
  · have hle : 97 ≤ c.toNat := h.1
    have hge : c.toNat ≤ 122 := h.2
    refine .inr ⟨hle, hge, ?_⟩
    unfold Char.toUpper
    rw [dif_pos h]
    show (c.val + ('A'.val - 'a'.val)).toNat + 32 = c.toNat
    rw [UInt32.toNat_add]
    show (c.toNat + 4294967264) % 4294967296 + 32 = c.toNat
    omega
  · left
    unfold Char.toUpper
    rw [dif_neg h]

theorem isAlpha_iff_toNat :
    c.isAlpha = true ↔ 65 ≤ c.toNat ∧ c.toNat ≤ 90 ∨ 97 ≤ c.toNat ∧ c.toNat ≤ 122 := by
  have hcapital : c.isUpper = true ↔ 65 ≤ c.toNat ∧ c.toNat ≤ 90 := decide_eq_true_iff
  have hsmall : c.isLower = true ↔ 97 ≤ c.toNat ∧ c.toNat ≤ 122 :=
    Bool.and_eq_true_iff.trans (and_congr decide_eq_true_iff decide_eq_true_iff)
  exact Bool.or_eq_true_iff.trans (or_congr hcapital hsmall)

theorem toUpper_of_isAlpha_eq_false (h : c.isAlpha = false) : c.toUpper = c := by
  rcases toUpper_cases c with hself | ⟨hle, hge, -⟩
  · exact hself
  · rw [isAlpha_iff_toNat.mpr (.inr ⟨hle, hge⟩)] at h
    contradiction

/-- A capital is a letter. -/
theorem isAlpha_toUpper (h : c.toUpper ≠ c) : c.toUpper.isAlpha = true := by
  rw [isAlpha_iff_toNat]
  rcases toUpper_cases c with hself | ⟨hle, hge, hcapital⟩
  · exact absurd hself h
  · omega

/-- Nothing but the character itself has a character that is no letter for its capital. -/
theorem toUpper_eq_iff (hm : m.isAlpha = false) : c.toUpper = m ↔ c = m := by
  constructor
  · intro h
    by_contra hne
    have halpha := isAlpha_toUpper (c := c) (by rw [h]; exact Ne.symm hne)
    rw [h, hm] at halpha
    contradiction
  · rintro rfl
    exact toUpper_of_isAlpha_eq_false hm

theorem toUpper_toUpper (c : Char) : c.toUpper.toUpper = c.toUpper := by
  rcases toUpper_cases c with hself | ⟨hle, hge, hcapital⟩
  · exact congrArg Char.toUpper hself
  · rcases toUpper_cases c.toUpper with hself | ⟨hle', -, -⟩
    · exact hself
    · omega

/-- A letter has the same capital in either case. -/
theorem toUpper_eq_or_iff {capital small : Char} (hcapital : small.toUpper = capital)
    (hne : small ≠ capital) :
    c.toUpper = capital ∨ c.toUpper = small ↔ c = capital ∨ c = small := by
  constructor
  · rintro (h | h)
    · rcases toUpper_cases c with hself | ⟨-, -, hc⟩
      · exact .inl (hself.symm.trans h)
      · right
        rcases toUpper_cases small with hself | ⟨-, -, hsmall⟩
        · exact absurd (hself.symm.trans hcapital) hne
        · rw [h] at hc
          rw [hcapital] at hsmall
          exact Char.toNat_inj.mp (hc.symm.trans hsmall)
    · have htwice := toUpper_toUpper c
      rw [h, hcapital] at htwice
      exact absurd htwice.symm hne
  · rintro (rfl | rfl)
    · left
      rw [← hcapital, toUpper_toUpper]
    · exact .inl hcapital

theorem isBlank_toUpper (c : Char) : isBlank c.toUpper = isBlank c := by
  rcases toUpper_cases c with hself | ⟨hle, hge, hcapital⟩
  · rw [hself]
  · rw [isBlank_of_isVisible, isBlank_of_isVisible]
    · simp only [isVisible, Bool.and_eq_true, decide_eq_true_eq]
      omega
    · simp only [isVisible, Bool.and_eq_true, decide_eq_true_eq]
      omega

theorem utf8Size_toUpper (c : Char) : c.toUpper.utf8Size = c.utf8Size := by
  have hone {c : Char} (h : c.toNat ≤ 127) : c.utf8Size = 1 := by
    unfold Char.utf8Size
    exact if_pos h
  rcases toUpper_cases c with hself | ⟨hle, hge, hcapital⟩
  · rw [hself]
  · rw [hone (by omega), hone (by omega)]

theorem upper_upper (cs : List Char) : upper (upper cs) = upper cs := by
  simp only [upper, List.map_map]
  exact List.map_congr_left fun c _ => toUpper_toUpper c

theorem mem_upper_iff (hm : m.isAlpha = false) : m ∈ upper cs ↔ m ∈ cs := by
  simp only [upper, List.mem_map, toUpper_eq_iff hm, exists_eq_right]

/-- What is said only of texts without letters is said of a text in either case. -/
theorem upper_iff_of_isAlpha_eq_false {P : List Char → Prop}
    (h : ∀ {ds}, P ds → ∀ c ∈ ds, c.isAlpha = false) : P (upper cs) ↔ P cs := by
  constructor
  · intro hP
    have hself : upper cs = cs := by
      apply upper_eq_self
      intro c hc
      by_contra hne
      have hnone := h hP c.toUpper (List.mem_map_of_mem hc)
      rw [isAlpha_toUpper hne] at hnone
      contradiction
    rwa [hself] at hP
  · intro hP
    rwa [upper_eq_self fun c hc => toUpper_of_isAlpha_eq_false (h hP c hc)]

theorem isAlpha_eq_false_of_isDigit (h : c.isDigit = true) : c.isAlpha = false := by
  have hbounds : 48 ≤ c.toNat ∧ c.toNat ≤ 57 := Char.isDigit_iff_toNat.mp h
  rw [← Bool.not_eq_true, isAlpha_iff_toNat]
  omega

theorem isUnsigned_upper_iff {n : Nat} : IsUnsigned n (upper cs) ↔ IsUnsigned n cs := by
  apply upper_iff_of_isAlpha_eq_false
  intro ds hds c hc
  rcases hds.isDigit_or_eq hc with hdigit | rfl
  · exact isAlpha_eq_false_of_isDigit hdigit
  · rfl

theorem isSigned_upper_iff {z : Int} : IsSigned z (upper cs) ↔ IsSigned z cs := by
  apply upper_iff_of_isAlpha_eq_false
  intro ds hds c hc
  rcases hds.isDigit_or_eq hc with hdigit | rfl | rfl
  · exact isAlpha_eq_false_of_isDigit hdigit
  · rfl
  · rfl

theorem trimLeft_upper (cs : List Char) : trimLeft (upper cs) = upper (trimLeft cs) := by
  rw [trimLeft, upper, List.dropWhile_map, trimLeft]
  congr 2
  funext c
  exact isBlank_toUpper c

theorem trim_upper (cs : List Char) : trim (upper cs) = upper (trim cs) := by
  have hright (ds : List Char) : trimRight (upper ds) = upper (trimRight ds) := by
    have hreverse := trimLeft_upper ds.reverse
    rw [upper, List.map_reverse, ← upper] at hreverse
    show (trimLeft (upper ds).reverse).reverse = upper (trimLeft ds.reverse).reverse
    rw [hreverse, upper, upper, List.map_reverse]
  rw [trim, trimLeft_upper, hright, trim]

/-! ## Blanks -/

/-- Whether a text has nothing but blanks. -/
def AllBlank (bs : List Char) : Prop :=
  ∀ c ∈ bs, isBlank c = true

theorem trim_blank_append (h : AllBlank bs) : trim (bs ++ cs) = trim cs := by
  rw [trim, trimLeft, List.dropWhile_append_of_pos h]
  rfl

theorem trim_append_blank (h : AllBlank bs) : trim (cs ++ bs) = trim cs := by
  have hright (ds : List Char) : trimRight (ds ++ bs) = trimRight ds := by
    rw [trimRight, List.reverse_append, List.dropWhile_append_of_pos
      fun c hc => h c (List.mem_reverse.mp hc), trimRight]
  have hnone : bs.dropWhile isBlank = [] := List.dropWhile_eq_nil_iff.mpr h
  rw [trim, trimLeft, List.dropWhile_append]
  split
  next hempty =>
    rw [hnone, trim, trimLeft, List.isEmpty_iff.mp hempty]
  next => exact hright _

theorem trim_eq_nil_iff : trim cs = [] ↔ AllBlank cs := by
  constructor
  · intro h c hc
    by_contra hblank
    have hmem := mem_trim (eq_false_of_ne_true hblank) hc
    rw [h] at hmem
    simp at hmem
  · intro h
    have hnil : trim ([] ++ cs) = trim [] := trim_append_blank h
    rwa [List.nil_append, trim_nil] at hnil

theorem allBlank_takeWhile (cs : List Char) : AllBlank (cs.takeWhile isBlank) :=
  fun c hc => List.all_eq_true.mp List.all_takeWhile c hc

/-- Trimming leaves out blanks at the back. -/
theorem exists_trimLeft_eq_trim_append (cs : List Char) :
    ∃ bs, AllBlank bs ∧ trimLeft cs = trim cs ++ bs := by
  refine ⟨((trimLeft cs).reverse.takeWhile isBlank).reverse, ?_, ?_⟩
  · exact fun c hc => allBlank_takeWhile _ c (List.mem_reverse.mp hc)
  · rw [trim, trimRight, ← List.reverse_append, List.takeWhile_append_dropWhile,
      List.reverse_reverse]

/-- A text is its trimmed form with blanks at the ends. -/
theorem exists_eq_trim (cs : List Char) :
    ∃ bs bs', AllBlank bs ∧ AllBlank bs' ∧ cs = bs ++ (trim cs ++ bs') := by
  obtain ⟨bs', hbs', hleft⟩ := exists_trimLeft_eq_trim_append cs
  refine ⟨cs.takeWhile isBlank, bs', allBlank_takeWhile cs, hbs', ?_⟩
  rw [← hleft]
  exact List.takeWhile_append_dropWhile.symm

/-! ## Items -/

theorem items_append_cons (cs ds : List Char) :
    items (cs ++ ',' :: ds) = items cs ++ items ds :=
  List.splitOnP_append_cons cs ds (beq_self_eq_true ',')

theorem items_of_not_mem (h : ',' ∉ cs) : items cs = [cs] :=
  List.splitOnP_eq_singleton (forall_beq_eq_false_iff.mpr h)

/-- Every character but the commas of a list stands in one of its items. -/
theorem exists_items_mem (hm : m ≠ ',') (h : m ∈ cs) : ∃ item ∈ items cs, m ∈ item := by
  by_contra hnone
  have hall : ∀ c ∈ [','].intercalate (items cs), c ≠ m := by
    refine forall_mem_intercalate (P := (· ≠ m)) hm.symm fun item hitem c hc heq => ?_
    exact hnone ⟨item, hitem, heq ▸ hc⟩
  rw [items, List.intercalate_splitOn] at hall
  exact hall m h rfl

theorem not_mem_of_allBlank (h : AllBlank bs) (hm : isBlank m = false) : m ∉ bs := by
  intro hmem
  rw [h m hmem] at hm
  contradiction

/-- Induction along the items of a list. -/
@[elab_as_elim]
theorem items_induction {P : List Char → Prop} (cs : List Char)
    (last : ∀ item, ',' ∉ item → P item)
    (more : ∀ item rest, ',' ∉ item → P rest → P (item ++ ',' :: rest)) : P cs := by
  induction hlength : cs.length using Nat.strongRecOn generalizing cs with
  | ind n ih =>
      by_cases hcomma : ',' ∈ cs
      · obtain ⟨item, rest, rfl, hitem⟩ := List.eq_append_cons_of_mem hcomma
        rw [List.length_append, List.length_cons] at hlength
        exact more item rest hitem (ih rest.length (by omega) rest rfl)
      · exact last cs hcomma

theorem items_upper (cs : List Char) : items (upper cs) = (items cs).map upper := by
  induction cs using items_induction with
  | last item hitem =>
      rw [items_of_not_mem hitem, items_of_not_mem (by rwa [mem_upper_iff rfl])]
      rfl
  | more item rest hitem ih =>
      have hupper : upper (item ++ ',' :: rest) = upper item ++ ',' :: upper rest := by
        rw [upper_append]
        rfl
      rw [hupper, items_append_cons, items_append_cons, List.map_append, ih,
        items_of_not_mem hitem, items_of_not_mem (by rwa [mem_upper_iff rfl])]
      rfl

theorem map_trim_items_blank_append (h : AllBlank bs) :
    (items (bs ++ cs)).map trim = (items cs).map trim := by
  have hbs := not_mem_of_allBlank h (m := ',') rfl
  cases cs using items_induction with
  | last item hitem =>
      rw [items_of_not_mem hitem, items_of_not_mem (by simp [hbs, hitem])]
      simp [trim_blank_append h]
  | more item rest hitem _ =>
      rw [← List.append_assoc, items_append_cons, items_append_cons, items_of_not_mem hitem,
        items_of_not_mem (by simp [hbs, hitem])]
      simp [trim_blank_append h]

theorem map_trim_items_append_blank (h : AllBlank bs) :
    (items (cs ++ bs)).map trim = (items cs).map trim := by
  induction cs using items_induction with
  | last item hitem =>
      have hbs := not_mem_of_allBlank h (m := ',') rfl
      rw [items_of_not_mem hitem, items_of_not_mem (by simp [hbs, hitem])]
      simp [trim_append_blank h]
  | more item rest hitem ih =>
      rw [List.append_assoc, List.cons_append, items_append_cons, items_append_cons,
        List.map_append, List.map_append, ih]

/-- Trimming a list first does not change its trimmed items. -/
theorem map_trim_items_trim (cs : List Char) :
    (items (trim cs)).map trim = (items cs).map trim := by
  obtain ⟨bs, bs', hbs, hbs', hcs⟩ := exists_eq_trim cs
  calc (items (trim cs)).map trim
    _ = (items (trim cs ++ bs')).map trim := (map_trim_items_append_blank hbs').symm
    _ = (items (bs ++ (trim cs ++ bs'))).map trim := (map_trim_items_blank_append hbs).symm
    _ = (items cs).map trim := by rw [← hcs]

/-! ## Beginnings -/

/-- A text without a mark is the beginning of another one up to the mark if it is the
beginning of all of it. -/
theorem prefix_of_prefix_append_cons {front back : List Char} (hm : m ∉ ds)
    (h : ds <+: front ++ m :: back) : ds <+: front := by
  rw [List.append_cons] at h
  rcases List.prefix_or_prefix_of_prefix h (List.prefix_append _ back) with hds | hfront
  · rcases List.prefix_concat_iff.mp hds with heq | hds
    · exact absurd (heq ▸ by simp) hm
    · exact hds
  · exact absurd (hfront.subset (by simp)) hm

/-- A text without blanks that stands in front of blanks ends before them. -/
theorem prefix_upper_of_append_blank {front back : List Char}
    (h : ∀ c ∈ ds, isBlank c = false) (hbs : AllBlank bs) (hne : bs ≠ [])
    (hds : ds <+: upper (front ++ (bs ++ back))) : ds <+: upper front := by
  cases bs with
  | nil => exact absurd rfl hne
  | cons b bs =>
      rw [upper_append] at hds
      refine prefix_of_prefix_append_cons (m := b.toUpper) (fun hmem => ?_) hds
      have hblank := h _ hmem
      rw [isBlank_toUpper, hbs b List.mem_cons_self] at hblank
      contradiction

/-- A text without blanks stands at the beginning of a trimmed one if it does after the
blanks in front. -/
theorem prefix_upper_trim_iff (h : ∀ c ∈ ds, isBlank c = false) :
    ds <+: upper (trim cs) ↔ ds <+: upper (trimLeft cs) := by
  obtain ⟨bs, hbs, hleft⟩ := exists_trimLeft_eq_trim_append cs
  rw [hleft]
  constructor
  · intro hds
    rw [upper_append]
    exact hds.trans (List.prefix_append _ _)
  · intro hds
    by_cases hne : bs = []
    · rwa [hne, List.append_nil] at hds
    · rw [← List.append_nil bs] at hds
      exact prefix_upper_of_append_blank h hbs hne hds

/-- What stands at the beginning of a text and has no blanks is not trimmed. -/
theorem prefix_upper_trim_of_prefix (h : ∀ c ∈ ds, isBlank c = false) (hds : ds <+: upper cs) :
    ds <+: upper (trim cs) := by
  cases ds with
  | nil => exact List.nil_prefix
  | cons d ds =>
      cases cs with
      | nil => simp [upper] at hds
      | cons c cs =>
          obtain ⟨rfl, -⟩ := List.cons_prefix_cons.mp hds
          have hblank := h c.toUpper List.mem_cons_self
          rw [isBlank_toUpper] at hblank
          rwa [prefix_upper_trim_iff h, trimLeft, List.dropWhile_cons_of_neg (by simp [hblank])]

/-- Blanks that are put into a text do not make it begin with a text without blanks. -/
theorem prefix_upper_trim_of_insert {front back : List Char} (h : ∀ c ∈ ds, isBlank c = false)
    (hbs : AllBlank bs) (hds : ds <+: upper (trim (front ++ (bs ++ back)))) :
    ds <+: upper (trim (front ++ back)) := by
  rw [prefix_upper_trim_iff h] at hds ⊢
  rw [trimLeft, List.dropWhile_append] at hds ⊢
  by_cases hfront : (front.dropWhile isBlank).isEmpty = true
  · rw [if_pos hfront, List.dropWhile_append_of_pos hbs] at hds
    rwa [if_pos hfront]
  · rw [if_neg hfront] at hds ⊢
    by_cases hne : bs = []
    · rwa [hne, List.nil_append] at hds
    · rw [upper_append]
      exact (prefix_upper_of_append_blank h hbs hne hds).trans (List.prefix_append _ _)

end Text
end Timetable
