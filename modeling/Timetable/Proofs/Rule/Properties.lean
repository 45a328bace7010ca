import Mathlib.Data.List.Forall2
import Timetable.Proofs.Civil.Stamp
import Timetable.Proofs.Text.Joining
import Timetable.Rule.Parser
import Timetable.Rule.Printer

/-!
# The properties of a written draft

The text of a draft shows one property for every key with a value, in the order of
`Key.all`.  `readAll_chars` says that the reader finds these properties again, and with them
the frequency (`readFrequency_eq_ok`), no name twice (`findRepeated?_eq_none`) and a second
ending only if the draft has a count and a deadline (`secondEnding?_eq_none_iff`).  What is
asked of the names among properties is a condition on any list of keys that they name.

Names and values are written with digits, capitals and hyphens, and commas between the items
of a value.  So they hold none of the separators of properties and nothing that is dropped
at their ends.
-/

namespace Timetable

open Civil
open Text (decimal signedDecimal isVisible trim upper)

/-! ## Characters -/

namespace Text

/-- Whether a character is a digit, a capital or a hyphen. -/
def isPlainChar (c : Char) : Bool :=
  c.isDigit || c.isUpper || c == '-'

theorem isVisible_of_isPlainChar {c : Char} (h : isPlainChar c = true) : isVisible c = true := by
  simp only [isPlainChar, Bool.or_eq_true, beq_iff_eq] at h
  rcases h with (hdigit | hupper) | rfl
  · exact isVisible_of_isDigit hdigit
  · obtain ⟨hfirst, hlast⟩ : 'A'.val ≤ c.val ∧ c.val ≤ 'Z'.val := of_decide_eq_true hupper
    have hbounds : 65 ≤ c.toNat ∧ c.toNat ≤ 90 :=
      ⟨UInt32.le_iff_toNat_le.mp hfirst, UInt32.le_iff_toNat_le.mp hlast⟩
    simp only [isVisible, Bool.and_eq_true, decide_eq_true_eq]
    omega
  · decide

theorem isPlainChar_of_mem_decimal {n : Nat} {c : Char} (h : c ∈ decimal n) :
    isPlainChar c = true := by
  rw [isPlainChar, isDigit_of_mem_decimal h, Bool.true_or, Bool.true_or]

theorem isPlainChar_of_mem_signedDecimal {n : Int} {c : Char} (h : c ∈ signedDecimal n) :
    isPlainChar c = true := by
  unfold signedDecimal at h
  split at h
  · rcases List.mem_cons.mp h with rfl | h
    · decide
    · exact isPlainChar_of_mem_decimal h
  · exact isPlainChar_of_mem_decimal h

theorem signedDecimal_ne_nil (n : Int) : signedDecimal n ≠ [] := by
  unfold signedDecimal
  split
  · exact List.cons_ne_nil _ _
  · exact decimal_ne_nil _

/-- Whether a text is written with digits, capitals and hyphens, and is not empty. -/
def IsPlain (cs : List Char) : Prop :=
  cs ≠ [] ∧ ∀ c ∈ cs, isPlainChar c = true

instance (cs : List Char) : Decidable (IsPlain cs) :=
  decidable_of_iff (cs ≠ [] ∧ cs.all isPlainChar = true) (by rw [IsPlain, List.all_eq_true])

theorem isPlain_decimal (n : Nat) : IsPlain (decimal n) :=
  ⟨decimal_ne_nil n, fun _ => isPlainChar_of_mem_decimal⟩

theorem isPlain_signedDecimal (n : Int) : IsPlain (signedDecimal n) :=
  ⟨signedDecimal_ne_nil n, fun _ => isPlainChar_of_mem_signedDecimal⟩

end Text

open Text (IsPlain isPlainChar isPlain_decimal isPlain_signedDecimal)

theorem Key.isPlain_name (key : Key) : IsPlain key.name.toList := by
  cases key <;> decide

theorem Key.upper_name (key : Key) : upper key.name.toList = key.name.toList := by
  cases key <;> rfl

theorem Frequency.isPlain_token (f : Frequency) : IsPlain f.token.toList := by
  cases f <;> decide

theorem Civil.Weekday.isPlain_token (d : Weekday) : IsPlain d.token.toList := by
  cases d <;> decide

theorem Civil.DateTime.isPlain_stampChars (t : DateTime) : IsPlain t.stampChars := by
  refine ⟨by simp [DateTime.stampChars_eq], ?_⟩
  intro c hc
  rcases DateTime.cases_of_mem_stampChars hc with hdigit | rfl | rfl
  · rw [isPlainChar, hdigit, Bool.true_or, Bool.true_or]
  · decide
  · decide

theorem WeekdaySelector.isPlain_chars (s : WeekdaySelector) : IsPlain s.chars := by
  obtain ⟨weekday, ordinal⟩ := s
  obtain ⟨hne, hplain⟩ := weekday.isPlain_token
  cases ordinal with
  | none => exact ⟨hne, hplain⟩
  | some n =>
      refine ⟨List.append_ne_nil_of_right_ne_nil _ hne, ?_⟩
      intro c hc
      rcases List.mem_append.mp hc with hc | hc
      · exact Text.isPlainChar_of_mem_signedDecimal hc
      · exact hplain c hc

namespace Draft

/-! ## Values -/

/-- The items of a value are plain. -/
theorem isPlain_of_mem_valueItems {d : Draft} {key : Key} {item : List Char}
    (h : item ∈ d.valueItems key) : IsPlain item := by
  cases key <;> simp only [valueItems, List.mem_map, List.mem_ite_nil_left,
    List.mem_singleton] at h
  case frequency => exact h ▸ d.frequency.isPlain_token
  case interval => exact h.2 ▸ isPlain_decimal _
  case deadline =>
    obtain ⟨t, -, rfl⟩ := h
    exact t.isPlain_stampChars
  case count =>
    obtain ⟨n, -, rfl⟩ := h
    exact isPlain_decimal n
  case weekStart => exact h.2 ▸ d.weekStart.isPlain_token
  case weekdays =>
    obtain ⟨s, -, rfl⟩ := h
    exact s.isPlain_chars
  case months =>
    obtain ⟨m, -, rfl⟩ := h
    exact isPlain_decimal _
  case hours | minutes | seconds =>
    obtain ⟨n, -, rfl⟩ := h
    exact isPlain_decimal n
  case yearDays | monthDays | setPositions =>
    obtain ⟨n, -, rfl⟩ := h
    exact isPlain_signedDecimal n

/-- The value of a property as it is written. -/
def valueChars (d : Draft) (key : Key) : List Char :=
  [','].intercalate (d.valueItems key)

/-- The keys that the text shows. -/
def keys (d : Draft) : List Key :=
  Key.all.filter fun key => !(d.valueItems key).isEmpty

/-- The text of a property. -/
def segmentChars (d : Draft) (key : Key) : List Char :=
  key.name.toList ++ '=' :: d.valueChars key

variable {d : Draft} {key : Key}

theorem mem_keys_iff : key ∈ d.keys ↔ d.valueItems key ≠ [] := by
  simp [keys, Key.mem_all]

theorem segments_eq (d : Draft) : d.segments = d.keys.map d.segmentChars := by
  unfold segments keys
  induction Key.all with
  | nil => rfl
  | cons key rest ih =>
      cases hitems : d.valueItems key with
      | nil =>
          rw [List.filterMap_cons_none (by simp [hitems]), List.filter_cons_of_neg
            (by simp [hitems]), ih]
      | cons item items =>
          rw [List.filterMap_cons_some (by rw [hitems]), List.filter_cons_of_pos
            (by simp [hitems]), List.map_cons, ih, segmentChars, valueChars, hitems]

theorem mem_valueChars {c : Char} (h : c ∈ d.valueChars key) :
    c = ',' ∨ isPlainChar c = true :=
  Text.forall_mem_intercalate (P := fun c => c = ',' ∨ isPlainChar c = true) (.inl rfl)
    (fun _ hitem c hc => .inr ((isPlain_of_mem_valueItems hitem).2 c hc)) c h

theorem valueChars_ne_nil (h : key ∈ d.keys) : d.valueChars key ≠ [] :=
  Text.intercalate_ne_nil (mem_keys_iff.mp h) fun _ hitem => (isPlain_of_mem_valueItems hitem).1

private theorem isVisible_of_mem_valueChars {c : Char} (h : c ∈ d.valueChars key) :
    isVisible c = true := by
  rcases mem_valueChars h with rfl | hplain
  · decide
  · exact Text.isVisible_of_isPlainChar hplain

/-- A property is written without blanks and without semicolons. -/
theorem mem_segmentChars {c : Char} (h : c ∈ d.segmentChars key) :
    isVisible c = true ∧ c ≠ ';' := by
  have hplain {c : Char} (hc : isPlainChar c = true) : isVisible c = true ∧ c ≠ ';' := by
    refine ⟨Text.isVisible_of_isPlainChar hc, ?_⟩
    rintro rfl
    exact absurd hc (by decide)
  rw [segmentChars, List.mem_append, List.mem_cons] at h
  rcases h with h | rfl | h
  · exact hplain (key.isPlain_name.2 c h)
  · decide
  · rcases mem_valueChars h with rfl | h
    · decide
    · exact hplain h

/-! ## Properties -/

/-- Whether a property shows what a draft has for a key. -/
def Shows (d : Draft) (key : Key) (p : Property) : Prop :=
  p.name = key.name.toList ∧ p.value = d.valueChars key

/-- A written property is read as name and value. -/
theorem exists_ofPiece (hkey : key ∈ d.keys) {p : Piece} (hp : p.chars = d.segmentChars key) :
    ∃ property, Property.ofPiece p = .ok property ∧ d.Shows key property := by
  have hname : trim key.name.toList = key.name.toList :=
    Text.trim_eq_self fun c hc =>
      Text.isBlank_of_isVisible (Text.isVisible_of_isPlainChar (key.isPlain_name.2 c hc))
  have hvalue : trim (d.valueChars key) = d.valueChars key :=
    Text.trim_eq_self fun c hc => Text.isBlank_of_isVisible (isVisible_of_mem_valueChars hc)
  have hdivide : Text.divideAt? (· == '=') (d.segmentChars key) =
      some (key.name.toList, d.valueChars key) := by
    apply Text.divideAt?_eq_some_of_not_mem
    intro hmem
    exact absurd (key.isPlain_name.2 '=' hmem) (by decide)
  refine ⟨⟨key.name.toList, d.valueChars key, p.span⟩, ?_, rfl, rfl⟩
  rw [Property.ofPiece, hp, hdivide]
  dsimp only
  rw [hname, hvalue, Key.upper_name, if_neg (by simpa using key.isPlain_name.1),
    if_neg (by simpa using valueChars_ne_nil hkey)]

theorem exists_mapM_ofPiece {ps : List Piece} {keys : List Key}
    (hkeys : ∀ key ∈ keys, key ∈ d.keys)
    (hps : ps.map Piece.chars = keys.map d.segmentChars) :
    ∃ properties,
      ((ps.map Piece.trim).filter fun p => !p.chars.isEmpty).mapM Property.ofPiece =
        .ok properties ∧ List.Forall₂ d.Shows keys properties := by
  induction keys generalizing ps with
  | nil =>
      obtain rfl := List.map_eq_nil_iff.mp hps
      exact ⟨[], rfl, .nil⟩
  | cons key rest ih =>
      obtain ⟨p, ps, rfl, hp, hps⟩ := List.map_eq_cons_iff.mp hps
      have hkey := hkeys key List.mem_cons_self
      have htrim : p.trim.chars = d.segmentChars key := by
        rw [Piece.trim, hp]
        exact Text.trim_eq_self fun c hc =>
          Text.isBlank_of_isVisible (mem_segmentChars hc).1
      have hne : (!p.trim.chars.isEmpty) = true := by
        simp [htrim, segmentChars]
      obtain ⟨property, hproperty, hshows⟩ := exists_ofPiece hkey htrim
      obtain ⟨properties, hread, hrest⟩ :=
        ih (fun k hk => hkeys k (List.mem_cons_of_mem key hk)) hps
      refine ⟨property :: properties, ?_, .cons hshows hrest⟩
      rw [List.map_cons, List.filter_cons, if_pos hne, List.mapM_cons, hproperty, hread]
      rfl

/-- The frequency comes first. -/
theorem keys_eq_cons (d : Draft) :
    d.keys = .frequency :: Key.all.tail.filter fun key => !(d.valueItems key).isEmpty :=
  rfl

/-- The properties of a draft's text are found again. -/
theorem readAll_chars (d : Draft) (start : Nat) :
    ∃ properties, Property.readAll start d.chars = .ok properties ∧
      List.Forall₂ d.Shows d.keys properties := by
  have hne : d.segments ≠ [] := by
    rw [segments_eq, keys_eq_cons]
    exact List.cons_ne_nil _ _
  have hsegments : (Text.segments start d.chars).map Piece.chars = d.keys.map d.segmentChars := by
    rw [chars, Text.chars_segments hne, segments_eq]
    rw [segments_eq]
    simp only [List.mem_map]
    rintro _ ⟨key, -, rfl⟩ hc
    exact (mem_segmentChars hc).2 rfl
  exact exists_mapM_ofPiece (fun _ hkey => hkey) hsegments

/-! ## Names among the properties -/

end Draft

theorem Key.injective_name : Function.Injective fun key : Key => key.name.toList := by
  intro a b hab
  have hname : Key.ofName? a.name.toList = Key.ofName? b.name.toList := congrArg Key.ofName? hab
  simpa using hname

namespace Property

variable {keys : List Key} {ps : List Property}

theorem hasKey_eq {p : Property} {key : Key} (h : p.name = key.name.toList) (key' : Key) :
    p.hasKey key' = decide (key = key') := by
  simp [hasKey, h]

theorem findRepeated?_eq_none_iff_nodup {seen : List (List Char)} :
    findRepeated? seen ps = none ↔ (∀ p ∈ ps, p.name ∉ seen) ∧ (ps.map Property.name).Nodup := by
  induction ps generalizing seen with
  | nil => simp [findRepeated?]
  | cons p ps ih =>
      rw [findRepeated?, List.forall_mem_cons, List.map_cons, List.nodup_cons, List.mem_map]
      by_cases hp : p.name ∈ seen
      · rw [if_pos (List.contains_iff_mem.mpr hp)]
        simp [hp]
      · rw [if_neg (List.contains_iff_mem.not.mpr hp), ih]
        constructor
        · intro h
          obtain ⟨hseen, hnodup⟩ := h
          refine ⟨⟨hp, fun q hq hmem => hseen q hq (List.mem_cons_of_mem _ hmem)⟩, ?_, hnodup⟩
          intro hmem
          obtain ⟨q, hq, hname⟩ := hmem
          exact hseen q hq (hname ▸ List.mem_cons_self)
        · intro h
          obtain ⟨⟨-, hseen⟩, hnot, hnodup⟩ := h
          refine ⟨fun q hq hmem => ?_, hnodup⟩
          rcases List.mem_cons.mp hmem with heq | hmem
          · exact hnot ⟨q, hq, heq⟩
          · exact hseen q hq hmem

/-- No name is repeated if and only if no key is. -/
theorem findRepeated?_eq_none_iff_of_names
    (h : ps.map Property.name = keys.map fun key => key.name.toList) :
    findRepeated? [] ps = none ↔ keys.Nodup := by
  rw [findRepeated?_eq_none_iff_nodup, h, List.nodup_map_iff Key.injective_name]
  simp

theorem length_filter_hasKey
    (h : ps.map Property.name = keys.map fun key => key.name.toList) :
    (ps.filter fun p => p.hasKey .count || p.hasKey .deadline).length =
      (keys.filter fun key => key = .count || key = .deadline).length := by
  induction keys generalizing ps with
  | nil =>
      rw [List.map_eq_nil_iff.mp h]
      rfl
  | cons key keys ih =>
      obtain ⟨p, ps, rfl, hp, hps⟩ := List.map_eq_cons_iff.mp h
      simp only [List.filter_cons, hasKey_eq hp]
      split
      · rw [List.length_cons, List.length_cons, ih hps]
      · exact ih hps

/-- Of different keys two are endings if and only if both endings are among them. -/
theorem length_filter_endings (hnodup : keys.Nodup) :
    (keys.filter fun key => key = .count || key = .deadline).length = 2 ↔
      Key.count ∈ keys ∧ Key.deadline ∈ keys := by
  have hperm : (keys.filter fun key => key = .count || key = .deadline).Perm
      ([Key.count, Key.deadline].filter fun key => key ∈ keys) := by
    rw [List.perm_ext_iff_of_nodup (hnodup.filter _) (List.Nodup.filter _ (by decide))]
    intro key
    simp [and_comm]
  rw [hperm.length_eq]
  by_cases hcount : Key.count ∈ keys <;> by_cases hdeadline : Key.deadline ∈ keys <;>
    simp [hcount, hdeadline]

/-- There is a second ending if and only if both endings are among the keys. -/
theorem secondEnding?_eq_none_iff_of_names
    (h : ps.map Property.name = keys.map fun key => key.name.toList) (hnodup : keys.Nodup) :
    secondEnding? ps = none ↔ ¬ (Key.count ∈ keys ∧ Key.deadline ∈ keys) := by
  rw [← length_filter_endings hnodup, ← length_filter_hasKey h, secondEnding?]
  split
  next heq => simp [heq]
  next hne =>
    refine iff_of_true rfl fun hlength => ?_
    obtain ⟨first, second, heq⟩ := List.length_eq_two.mp hlength
    exact hne first second heq

end Property

namespace Draft

variable {d : Draft} {keys : List Key} {ps : List Property}

theorem nodup_keys (d : Draft) : d.keys.Nodup :=
  List.Nodup.filter _ (by decide)

theorem map_name_of_shows (h : List.Forall₂ d.Shows keys ps) :
    ps.map Property.name = keys.map fun key => key.name.toList := by
  induction h with
  | nil => rfl
  | cons hshows _ ih => rw [List.map_cons, List.map_cons, hshows.1, ih]

theorem findRepeated?_eq_none (h : List.Forall₂ d.Shows d.keys ps) :
    Property.findRepeated? [] ps = none :=
  (Property.findRepeated?_eq_none_iff_of_names (map_name_of_shows h)).mpr d.nodup_keys

/-- The frequency is the first property. -/
theorem readFrequency_eq_ok (h : List.Forall₂ d.Shows d.keys ps) (whole : Span) :
    Property.readFrequency whole ps = .ok d.frequency := by
  rw [keys_eq_cons] at h
  cases h with
  | cons hshows _ =>
      have hvalue : Frequency.ofToken? (d.valueChars .frequency) = some d.frequency := by
        rw [valueChars, valueItems, List.intercalate_singleton, Frequency.ofToken?_token]
      rw [Property.readFrequency, List.find?_cons_of_pos (by simp [Property.hasKey_eq hshows.1])]
      dsimp only
      rw [hshows.2, hvalue]

/-- There is a second ending if and only if the draft has a count and a deadline. -/
theorem secondEnding?_eq_none_iff (h : List.Forall₂ d.Shows d.keys ps) :
    Property.secondEnding? ps = none ↔ (d.count.isNone || d.deadline.isNone) = true := by
  rw [Property.secondEnding?_eq_none_iff_of_names (map_name_of_shows h) d.nodup_keys]
  cases hcount : d.count <;> cases hdeadline : d.deadline <;>
    simp [mem_keys_iff, valueItems, hcount, hdeadline]

end Draft
end Timetable
