import Timetable.Proofs.Civil.Spelling
import Timetable.Proofs.Rule.Grammar
import Timetable.Proofs.Text.Pieces

/-!
# The segment at fault

A text that is not a rule has a segment at fault, or it has no frequency.  `IsSegment` says
what the segments of a text are and at which byte of the whole text each begins, and
`IsAtFault` which of them is at fault: what makes a text a rule is asked in a fixed order, and
of the first thing that fails the first segment that breaks it is at fault.

`read_eq_error` says that a fault comes with the byte range of that segment, and with the
range of the whole text if there is no frequency.
-/

namespace Timetable

open Text (trim upper byteLength)

/-! ## Segments -/

namespace Piece

/-- Whether a segment has a name and shows some value. -/
def HasName (p : Piece) (name : List Char) : Prop :=
  ∃ value, ShowsProperty name value p.chars

/-- Whether a segment shows a name and a value. -/
def IsProperty (p : Piece) : Prop :=
  ∃ name, p.HasName name

/-- Whether two segments have one name. -/
def SameName (p q : Piece) : Prop :=
  ∃ name, p.HasName name ∧ q.HasName name

/-- Whether a segment has the name of a key and a value that a rule with the frequency may
have for it. -/
def IsAccepted (frequency : Frequency) (p : Piece) : Prop :=
  ∃ key : Key, ∃ value, ShowsProperty key.name.toList value p.chars ∧ key.Accepts frequency value

end Piece

namespace Rule

/-- Whether a piece is a segment of a text: a part of the text after the header that lies
between semicolons, without the blanks at its ends, unless nothing is left of it. -/
def IsSegment (cs : List Char) (p : Piece) : Prop :=
  ∃ head body left raw right, cs = head ++ body ∧ IsBody cs body ∧
    Text.IsCut (· == ';') body left raw right ∧ p.chars = trim raw ∧ p.chars ≠ [] ∧
      p.start = byteLength (head ++ (left ++ raw.takeWhile Text.isBlank))

/-- Whether no two segments have one name. -/
def DistinctNames (qs : List Piece) : Prop :=
  qs.Pairwise fun p q => ¬ p.SameName q

/-- Whether the segments say that a rule has a frequency. -/
def HasFrequency (qs : List Piece) (frequency : Frequency) : Prop :=
  ∃ q ∈ qs, ∃ value, ShowsProperty Key.frequency.name.toList value q.chars ∧
    frequency.token.toList = upper value

/-- Whether nothing is wrong with the segments before it is seen that none is a frequency. -/
structure LacksFrequency (qs : List Piece) : Prop where
  isProperty : ∀ q ∈ qs, q.IsProperty
  distinct : DistinctNames qs
  frequency_not_mem : ∀ q ∈ qs, ¬ q.HasName Key.frequency.name.toList

/-- Whether a segment is the one at fault among all segments of a text. -/
inductive IsAtFault (qs : List Piece) (p : Piece) : Prop
  /-- The first one without a name and a value. -/
  | malformed {before after : List Piece} (split : qs = before ++ p :: after)
      (before_isProperty : ∀ q ∈ before, q.IsProperty) (fault : ¬ p.IsProperty)
  /-- The first one whose name an earlier one has. -/
  | repeated (isProperty : ∀ q ∈ qs, q.IsProperty) {before after : List Piece}
      (split : qs = before ++ p :: after) (before_distinct : DistinctNames before)
      (fault : ∃ q ∈ before, q.SameName p)
  /-- The frequency, if it is none. -/
  | unknownFrequency (isProperty : ∀ q ∈ qs, q.IsProperty) (distinct : DistinctNames qs)
      (mem : p ∈ qs) {value : List Char}
      (shows : ShowsProperty Key.frequency.name.toList value p.chars)
      (fault : ∀ f : Frequency, f.token.toList ≠ upper value)
  /-- The first one with an unknown name, or with a value that its key does not have in a rule
  with the frequency. -/
  | refused (isProperty : ∀ q ∈ qs, q.IsProperty) (distinct : DistinctNames qs)
      {frequency : Frequency} (hasFrequency : HasFrequency qs frequency)
      {before after : List Piece} (split : qs = before ++ p :: after)
      (before_isAccepted : ∀ q ∈ before, q.IsAccepted frequency)
      (fault : ¬ p.IsAccepted frequency)
  /-- The later one of two endings. -/
  | secondEnding (isProperty : ∀ q ∈ qs, q.IsProperty) (distinct : DistinctNames qs)
      {frequency : Frequency} (hasFrequency : HasFrequency qs frequency)
      (isAccepted : ∀ q ∈ qs, q.IsAccepted frequency)
      {before after : List Piece} (split : qs = before ++ p :: after) {first second : Key}
      (endings : first = .count ∧ second = .deadline ∨ first = .deadline ∧ second = .count)
      (fault : p.HasName second.name.toList ∧ ∃ q ∈ before, q.HasName first.name.toList)

variable {cs : List Char} {qs : List Piece} {ps : List Property} {p : Property} {q : Piece}

/-- A segment is at fault only if it is not the frequency that is missing. -/
theorem IsAtFault.not_lacksFrequency (h : IsAtFault qs q) : ¬ LacksFrequency qs := by
  have hfound {frequency : Frequency} (hfrequency : HasFrequency qs frequency) :
      ¬ LacksFrequency qs := by
    intro hlacks
    obtain ⟨p, hp, value, hshows, -⟩ := hfrequency
    exact hlacks.frequency_not_mem p hp ⟨value, hshows⟩
  cases h with
  | malformed split _ fault =>
      exact fun hlacks => fault (hlacks.isProperty q (split ▸ by simp))
  | repeated _ split _ fault =>
      intro hlacks
      obtain ⟨first, hfirst, hsame⟩ := fault
      have hdistinct := hlacks.distinct
      rw [split, DistinctNames, List.pairwise_append] at hdistinct
      exact hdistinct.2.2 first hfirst q List.mem_cons_self hsame
  | unknownFrequency _ _ mem shows _ =>
      exact fun hlacks => hlacks.frequency_not_mem q mem ⟨_, shows⟩
  | refused _ _ hasFrequency _ _ _ => exact hfound hasFrequency
  | secondEnding _ _ hasFrequency _ _ _ _ => exact hfound hasFrequency

theorem IsAtFault.mem (h : IsAtFault qs q) : q ∈ qs := by
  cases h with
  | malformed split _ _ => simp [split]
  | repeated _ split _ _ => simp [split]
  | unknownFrequency _ _ mem _ _ => exact mem
  | refused _ _ _ split _ _ => simp [split]
  | secondEnding _ _ _ _ split _ _ => simp [split]

/-! ## Where segments begin -/

/-- What stands in front of the body takes up the bytes that the reader counts for it. -/
theorem exists_eq_append_body (cs : List Char) :
    ∃ head, cs = head ++ (body cs).2 ∧ byteLength head = (body cs).1 := by
  by_cases hfront : upper (cs.take header.length) = header
  · rw [body, if_pos hfront]
    refine ⟨cs.take header.length, (List.take_append_drop _ _).symm, ?_⟩
    rw [← Text.byteLength_upper, hfront]
    rfl
  · rw [body, if_neg hfront]
    exact ⟨[], rfl, rfl⟩

theorem mem_pieces_iff {start : Nat} :
    q ∈ Property.pieces start cs ↔
      ∃ left raw right, Text.IsCut (· == ';') cs left raw right ∧ q.chars = trim raw ∧
        q.chars ≠ [] ∧ q.start = start + byteLength (left ++ raw.takeWhile Text.isBlank) := by
  simp only [Property.pieces, Text.segments, List.mem_filter, List.mem_map, Text.mem_splitWhere_iff,
    Bool.not_eq_true', List.isEmpty_eq_false_iff, Text.byteLength_append]
  constructor
  · rintro ⟨⟨p, ⟨left, right, hcut, hstart⟩, rfl⟩, hne⟩
    refine ⟨left, p.chars, right, hcut, rfl, hne, ?_⟩
    rw [Piece.trim, hstart, Nat.add_assoc]
  · rintro ⟨left, raw, right, hcut, hchars, hne, hstart⟩
    refine ⟨⟨⟨start + byteLength left, raw⟩, ⟨left, right, hcut, rfl⟩, ?_⟩, hne⟩
    rw [Piece.trim, ← hchars, Nat.add_assoc, ← hstart]

theorem IsSegment.liesIn (h : IsSegment cs q) : Text.LiesIn cs q := by
  obtain ⟨head, body, left, raw, right, rfl, -, hcut, hchars, -, hstart⟩ := h
  obtain ⟨bs, hraw⟩ := Piece.exists_chars_eq_trim ⟨0, raw⟩
  refine ⟨head ++ (left ++ raw.takeWhile Text.isBlank), bs ++ right, ?_, hstart⟩
  have hraw : raw = raw.takeWhile Text.isBlank ++ (q.chars ++ bs) := by
    rw [hchars]
    exact hraw
  rw [hcut.chars_eq]
  conv_lhs => rw [hraw]
  simp only [List.append_assoc]

/-- The reader takes all segments of a text, from left to right. -/
theorem listsAll_pieces (cs : List Char) :
    Text.ListsAll (IsSegment cs) (Property.pieces (body cs).1 (body cs).2) where
  mem_iff p := by
    obtain ⟨head, hcs, hstart⟩ := exists_eq_append_body cs
    rw [mem_pieces_iff, ← hstart]
    constructor
    · rintro ⟨left, raw, right, hcut, hchars, hne, hp⟩
      refine ⟨head, _, left, raw, right, hcs, isBody_iff.mpr rfl, hcut, hchars, hne, ?_⟩
      rw [hp, Text.byteLength_append head]
    · rintro ⟨head', body', left, raw, right, hcs', hbody, hcut, hchars, hne, hp⟩
      obtain rfl := isBody_iff.mp hbody
      obtain rfl := List.append_cancel_right (hcs.symm.trans hcs')
      refine ⟨left, raw, right, hcut, hchars, hne, ?_⟩
      rw [hp, Text.byteLength_append head]
  ascend := by
    apply List.Pairwise.filter
    rw [List.pairwise_map]
    refine (Text.ascend_splitWhere _ _ _).imp fun {p q} hlt => ?_
    have hp := p.span_trim
    have hq := q.span_trim
    omega

end Rule

/-! ## What the reader reports -/

namespace Property

variable {cs : List Char} {qs : List Piece} {ps : List Property} {p : Property} {q : Piece}

/-- Whether a property was read from a segment. -/
def IsReadFrom (q : Piece) (p : Property) : Prop :=
  ShowsProperty p.name p.value q.chars ∧ p.span = q.span

/-- A segment shows one name and one value. -/
theorem IsReadFrom.shows_iff (h : IsReadFrom q p) {name value : List Char} :
    ShowsProperty name value q.chars ↔ p.name = name ∧ p.value = value := by
  constructor
  · intro hshows
    have hread : ofPiece q = .ok ⟨name, value, q.span⟩ := ofPiece_eq_ok_iff.mpr ⟨hshows, rfl⟩
    rw [ofPiece_eq_ok_iff.mpr h] at hread
    rw [Except.ok.inj hread]
    exact ⟨rfl, rfl⟩
  · rintro ⟨rfl, rfl⟩
    exact h.1

theorem IsReadFrom.hasName_iff (h : IsReadFrom q p) {name : List Char} :
    q.HasName name ↔ p.name = name := by
  simp only [Piece.HasName, h.shows_iff, exists_and_left, exists_eq', and_true]

theorem IsReadFrom.sameName_iff {q' : Piece} {p' : Property} (h : IsReadFrom q p)
    (h' : IsReadFrom q' p') : q.SameName q' ↔ p.name = p'.name := by
  simp only [Piece.SameName, h.hasName_iff, h'.hasName_iff, exists_eq_left']
  exact eq_comm

/-- Whether a property has the name of a key and a value that a rule with the frequency may
have for it. -/
def IsAccepted (frequency : Frequency) (p : Property) : Prop :=
  ∃ key : Key, p.name = key.name.toList ∧ key.Accepts frequency p.value

theorem IsReadFrom.isAccepted_iff (h : IsReadFrom q p) {frequency : Frequency} :
    q.IsAccepted frequency ↔ p.IsAccepted frequency := by
  simp only [Piece.IsAccepted, IsAccepted, h.shows_iff]
  constructor
  · rintro ⟨key, _, ⟨hname, rfl⟩, haccepts⟩
    exact ⟨key, hname, haccepts⟩
  · rintro ⟨key, hname, haccepts⟩
    exact ⟨key, p.value, ⟨hname, rfl⟩, haccepts⟩

/-- A fault of a segment is that it shows no name and value. -/
theorem not_isProperty_of_ofPiece {e : Located Rule.Fault} (h : ofPiece q = .error e) :
    ¬ q.IsProperty ∧ e.span = q.span := by
  constructor
  · rintro ⟨name, value, hshows⟩
    have hread : ofPiece q = .ok ⟨name, value, q.span⟩ := ofPiece_eq_ok_iff.mpr ⟨hshows, rfl⟩
    rw [hread] at h
    contradiction
  · rw [ofPiece] at h
    split at h
    next => rw [← Except.error.inj h]
    next =>
      dsimp only at h
      split at h
      next => rw [← Except.error.inj h]
      next =>
        split at h
        next => rw [← Except.error.inj h]
        next => simp at h

/-- Names are repeated among segments as among the properties that were read from them. -/
theorem distinctNames_iff (h : List.Forall₂ IsReadFrom qs ps) :
    Rule.DistinctNames qs ↔ (ps.map Property.name).Nodup := by
  induction h with
  | nil => simp [Rule.DistinctNames]
  | @cons q p qs ps hread hrest ih =>
      rw [Rule.DistinctNames, List.pairwise_cons, List.map_cons, List.nodup_cons, ← ih,
        Rule.DistinctNames]
      apply and_congr_left
      intro _
      rw [List.mem_map, not_exists]
      constructor
      · rintro hall p' ⟨hp', hname⟩
        obtain ⟨q', hq', hread'⟩ := exists_of_forall₂ hrest hp'
        exact hall q' hq' ((hread.sameName_iff hread').mpr hname.symm)
      · intro hall q' hq' hsame
        obtain ⟨p', hp', hread'⟩ := exists_of_forall₂ hrest.flip hq'
        exact hall p' ⟨hp', ((hread.sameName_iff hread').mp hsame).symm⟩

/-- A repeated name is that of the first property with the name of an earlier one. -/
theorem exists_of_findRepeated?_eq_some {seen : List (List Char)}
    (h : findRepeated? seen ps = some p) :
    ∃ before after, ps = before ++ p :: after ∧ findRepeated? seen before = none ∧
      (p.name ∈ seen ∨ ∃ first ∈ before, first.name = p.name) := by
  induction ps generalizing seen with
  | nil => simp [findRepeated?] at h
  | cons first ps ih =>
      rw [findRepeated?] at h
      split at h
      next hseen =>
        obtain rfl := Option.some.inj h
        exact ⟨[], ps, rfl, rfl, .inl (List.contains_iff_mem.mp hseen)⟩
      next hseen =>
        obtain ⟨before, after, rfl, hnone, hname⟩ := ih h
        refine ⟨first :: before, after, rfl, ?_, ?_⟩
        · rw [findRepeated?, if_neg hseen, hnone]
        · rcases hname with hmem | ⟨other, hother, hname⟩
          · rcases List.mem_cons.mp hmem with heq | hmem
            · exact .inr ⟨first, List.mem_cons_self, heq.symm⟩
            · exact .inl hmem
          · exact .inr ⟨other, List.mem_cons_of_mem _ hother, hname⟩

theorem hasKey_iff {key : Key} : p.hasKey key = true ↔ p.name = key.name.toList := by
  rw [hasKey, decide_eq_true_eq, Key.ofName?, Lists.find?_beq_eq_some_iff Key.ofName?_name,
    eq_comm]

/-- A frequency is missing, or it is unknown. -/
theorem cases_of_readFrequency {whole : Span} {e : Located Rule.Fault}
    (h : readFrequency whole ps = .error e) :
    (∀ p ∈ ps, p.name ≠ Key.frequency.name.toList) ∧ e = ⟨.missingFrequency, whole⟩ ∨
      ∃ p ∈ ps, p.name = Key.frequency.name.toList ∧
        (∀ f : Frequency, f.token.toList ≠ upper p.value) ∧ e.span = p.span := by
  rw [readFrequency] at h
  split at h
  next hnone =>
    rw [List.find?_eq_none] at hnone
    exact .inl ⟨fun p hp hname => hnone p hp (hasKey_iff.mpr hname), (Except.error.inj h).symm⟩
  next p hfound =>
    split at h
    next hunknown =>
      have hkey := List.find?_some hfound
      refine .inr ⟨p, List.mem_of_find?_eq_some hfound, hasKey_iff.mp hkey, ?_,
        by rw [← Except.error.inj h]⟩
      intro f hf
      rw [ofFrequencyToken?_eq_some_iff.mpr hf] at hunknown
      contradiction
    next => simp at h

/-- The frequency that was read is in the only property for it. -/
theorem exists_of_readFrequency {whole : Span} {frequency : Frequency}
    (h : readFrequency whole ps = .ok frequency) (hnodup : (ps.map Property.name).Nodup) :
    (∃ p ∈ ps, p.name = Key.frequency.name.toList) ∧
      ∀ p ∈ ps, p.name = Key.frequency.name.toList → frequency.token.toList = upper p.value := by
  rw [readFrequency] at h
  split at h
  next => simp at h
  next p hfound =>
    have hmem := List.mem_of_find?_eq_some hfound
    have hkey := List.find?_some hfound
    have hname := hasKey_iff.mp hkey
    split at h
    next => simp at h
    next f hf =>
      obtain rfl := Except.ok.inj h
      refine ⟨⟨p, hmem, hname⟩, fun p' hp' hname' => ?_⟩
      obtain rfl := List.inj_on_of_nodup_map hnodup hmem hp' (hname.trans hname'.symm)
      exact ofFrequencyToken?_eq_some_iff.mp hf

/-- The second ending is the later one of a count and a deadline. -/
theorem exists_of_secondEnding?_eq_some (hnodup : (ps.map Property.name).Nodup)
    (h : secondEnding? ps = some p) :
    ∃ before after, ps = before ++ p :: after ∧ ∃ k₁ k₂ : Key,
      (k₁ = .count ∧ k₂ = .deadline ∨ k₁ = .deadline ∧ k₂ = .count) ∧
        p.name = k₂.name.toList ∧ ∃ first ∈ before, first.name = k₁.name.toList := by
  rw [secondEnding?] at h
  split at h
  next first second hfilter =>
    obtain rfl := Option.some.inj h
    obtain ⟨front, back, rfl, hfront, hback⟩ := List.filter_eq_append_iff.mp
      (show _ = [first] ++ [second] from hfilter)
    obtain ⟨between, after, rfl, -, hsecond, -⟩ := List.filter_eq_cons_iff.mp hback
    obtain ⟨hmem, hfirst⟩ := List.mem_filter.mp (hfront ▸ List.mem_singleton_self first)
    have hne : first.name ≠ second.name := by
      rw [List.map_append, List.nodup_append] at hnodup
      exact hnodup.2.2 _ (List.mem_map_of_mem hmem) _ (by simp)
    refine ⟨front ++ between, after, by simp, ?_⟩
    simp only [Bool.or_eq_true, hasKey_iff] at hfirst hsecond
    rcases hfirst with hfirst | hfirst <;> rcases hsecond with hsecond | hsecond
    · exact absurd (hfirst.trans hsecond.symm) hne
    · exact ⟨_, _, .inl ⟨rfl, rfl⟩, hsecond, first, List.mem_append_left _ hmem, hfirst⟩
    · exact ⟨_, _, .inr ⟨rfl, rfl⟩, hsecond, first, List.mem_append_left _ hmem, hfirst⟩
    · exact absurd (hfirst.trans hsecond.symm) hne
  next => simp at h

/-- Properties are entered if and only if each of them is accepted. -/
theorem exists_foldlM_iff {frequency : Frequency}
    (hfrequency : ∀ p ∈ ps, p.name = Key.frequency.name.toList →
      frequency.token.toList = upper p.value) :
    (∃ d, ps.foldlM Draft.enterProperty (Draft.ofFrequency frequency) = .ok d) ↔
      ∀ p ∈ ps, p.IsAccepted frequency := by
  have hentries {entries : List (Key × List Char)} (h : List.Forall₂ IsEntry ps entries) :
      (∃ d, ps.foldlM Draft.enterProperty (Draft.ofFrequency frequency) = .ok d) ↔
        ∀ entry ∈ entries, entry.1.Accepts frequency entry.2 := by
    simp only [foldlM_enterProperty_eq_ok_iff h]
    apply Draft.exists_enterAll_iff
    intro cs hcs
    obtain ⟨p, hp, hname, rfl⟩ := exists_of_forall₂ h hcs
    exact hfrequency p hp hname
  constructor
  · rintro ⟨d, hd⟩ p hp
    obtain ⟨entries, h⟩ := exists_entries_of_foldlM hd
    obtain ⟨entry, hentry, hname, hvalue⟩ := exists_of_forall₂ h.flip hp
    have haccepts := (hentries h).mp ⟨d, hd⟩ entry hentry
    exact ⟨entry.1, hname, hvalue.symm ▸ haccepts⟩
  -- Accepted properties have keys, which makes them a list of entries.
  · intro h
    obtain ⟨entries, h⟩ := exists_forall₂_iff.mpr fun p hp =>
      (⟨(_, p.value), ⟨(h p hp).choose_spec.1, rfl⟩, (h p hp).choose_spec.2⟩ :
        ∃ entry : Key × List Char, p.IsEntry entry ∧ entry.1.Accepts frequency entry.2)
    refine (hentries (h.imp fun _ _ h => h.1)).mpr fun entry hentry => ?_
    obtain ⟨p, -, -, haccepts⟩ := exists_of_forall₂ h hentry
    exact haccepts

/-- The first property that is not entered is the first one that is not accepted. -/
theorem exists_of_foldlM_enterProperty {frequency : Frequency} {e : Located Rule.Fault}
    (hfrequency : ∀ p ∈ ps, p.name = Key.frequency.name.toList →
      frequency.token.toList = upper p.value)
    (h : ps.foldlM Draft.enterProperty (Draft.ofFrequency frequency) = .error e) :
    ∃ before p after, ps = before ++ p :: after ∧ (∀ p' ∈ before, p'.IsAccepted frequency) ∧
      ¬ p.IsAccepted frequency ∧ e.span = p.span := by
  obtain ⟨before, p, after, mid, rfl, hmid, hp⟩ := exists_of_foldlM_eq_error h
  have hbefore : ∀ p' ∈ before, p'.IsAccepted frequency :=
    (exists_foldlM_iff fun p' hp' => hfrequency p' (by simp [hp'])).mp ⟨mid, hmid⟩
  refine ⟨before, p, after, rfl, hbefore, fun haccepted => ?_, ?_⟩
  -- Were it accepted, the properties up to it could all be entered.
  · have hupTo : ∀ p' ∈ before ++ [p], p'.IsAccepted frequency := by
      rw [List.forall_mem_append]
      exact ⟨hbefore, by simpa using haccepted⟩
    obtain ⟨d, hd⟩ := (exists_foldlM_iff fun p' hp' => hfrequency p' (by
      rw [List.mem_append, List.mem_singleton] at hp'
      rcases hp' with hp' | rfl <;> simp [*])).mpr hupTo
    rw [List.foldlM_append] at hd
    obtain ⟨mid', hmid', hd⟩ := bind_eq_ok_iff.mp hd
    obtain rfl := Except.ok.inj (hmid.symm.trans hmid')
    obtain ⟨d', hd', -⟩ := bind_eq_ok_iff.mp hd
    rw [hp] at hd'
    contradiction
  · obtain ⟨fault, -, rfl⟩ := mapError_eq_error_iff.mp hp
    rfl

end Property

namespace Rule

open Property (IsReadFrom)

variable {cs : List Char} {qs : List Piece} {ps : List Property}

/-- Which check reports a fault of properties.  None is left for what was entered. -/
theorem cases_of_ofProperties {whole : Span} {e : Located Fault}
    (h : ofProperties whole ps = .error e) :
    (∃ p, Property.findRepeated? [] ps = some p ∧ e.span = p.span) ∨
      Property.findRepeated? [] ps = none ∧
        (Property.readFrequency whole ps = .error e ∨
          ∃ frequency, Property.readFrequency whole ps = .ok frequency ∧
            (ps.foldlM Draft.enterProperty (Draft.ofFrequency frequency) = .error e ∨
              ∃ d, ps.foldlM Draft.enterProperty (Draft.ofFrequency frequency) = .ok d ∧
                ∃ p, Property.secondEnding? ps = some p ∧ e.span = p.span)) := by
  rw [ofProperties] at h
  cases hrepeated : Property.findRepeated? [] ps with
  | some p =>
      rw [hrepeated] at h
      exact .inl ⟨p, rfl, by rw [← Except.error.inj h]⟩
  | none =>
      rw [hrepeated] at h
      refine .inr ⟨rfl, ?_⟩
      rcases bind_eq_error_iff.mp h with hfrequency | ⟨frequency, hfrequency, h⟩
      · exact .inl hfrequency
      refine .inr ⟨frequency, hfrequency, ?_⟩
      rcases bind_eq_error_iff.mp h with hentered | ⟨d, hentered, h⟩
      · exact .inl hentered
      refine .inr ⟨d, hentered, ?_⟩
      cases hsecond : Property.secondEnding? ps with
      | some p =>
          rw [hsecond] at h
          exact ⟨p, rfl, by rw [← Except.error.inj h]⟩
      | none =>
          rw [hsecond] at h
          obtain ⟨fault, hbuild, -⟩ := mapError_eq_error_iff.mp h
          -- What was entered is built, so the last check reports nothing.
          obtain ⟨r, hr⟩ := exists_build_of_entered hrepeated hfrequency hentered hsecond
          rw [hr] at hbuild
          contradiction

section Located

variable (hread : List.Forall₂ IsReadFrom qs ps)

include hread

/-- A property that lies behind others was read from a segment that lies behind others. -/
theorem exists_segment_behind {before after : List Property} {p : Property}
    (hsplit : ps = before ++ p :: after) :
    ∃ before' q after', qs = before' ++ q :: after' ∧ List.Forall₂ IsReadFrom before' before ∧
      IsReadFrom q p := by
  obtain ⟨before', q, after', hqs, hbefore, hq, -⟩ :=
    exists_of_forall₂_append_cons (hsplit ▸ hread)
  exact ⟨before', q, after', hqs, hbefore, hq⟩

theorem isProperty_of_isReadFrom : ∀ q ∈ qs, q.IsProperty := by
  intro q hq
  obtain ⟨p, -, hshows, -⟩ := exists_of_forall₂ hread.flip hq
  exact ⟨p.name, p.value, hshows⟩

theorem isAccepted_of_isReadFrom {frequency : Frequency}
    (h : ∀ p ∈ ps, p.IsAccepted frequency) : ∀ q ∈ qs, q.IsAccepted frequency := by
  intro q hq
  obtain ⟨p, hp, hqp⟩ := exists_of_forall₂ hread.flip hq
  exact (IsReadFrom.isAccepted_iff hqp).mpr (h p hp)

theorem isAtFault_of_findRepeated? {p : Property}
    (h : Property.findRepeated? [] ps = some p) : ∃ q, IsAtFault qs q ∧ p.span = q.span := by
  obtain ⟨before, after, hsplit, hnone, hname⟩ := Property.exists_of_findRepeated?_eq_some h
  obtain ⟨before', q, after', hqs, hbefore, hq⟩ := exists_segment_behind hread hsplit
  have hdistinct := (Property.distinctNames_iff hbefore).mpr
    (Property.findRepeated?_eq_none_iff_nodup.mp hnone).2
  obtain ⟨first, hfirst, hsame⟩ := hname.resolve_left List.not_mem_nil
  obtain ⟨q', hq', hfirst⟩ := exists_of_forall₂ hbefore hfirst
  exact ⟨q, .repeated (isProperty_of_isReadFrom hread) hqs hdistinct
    ⟨q', hq', (hfirst.sameName_iff hq).mpr hsame⟩, hq.2⟩

variable (hnodup : (ps.map Property.name).Nodup)

include hnodup

theorem isAtFault_of_readFrequency {whole : Span} {e : Located Fault}
    (h : Property.readFrequency whole ps = .error e) :
    LacksFrequency qs ∧ e = ⟨.missingFrequency, whole⟩ ∨
      ∃ q, IsAtFault qs q ∧ e.span = q.span := by
  have hproperty := isProperty_of_isReadFrom hread
  have hdistinct := (Property.distinctNames_iff hread).mpr hnodup
  rcases Property.cases_of_readFrequency h with ⟨hmissing, he⟩ | hunknown
  · refine .inl ⟨⟨hproperty, hdistinct, fun q hq hname => ?_⟩, he⟩
    obtain ⟨p, hp, hqp⟩ := exists_of_forall₂ hread.flip hq
    exact hmissing p hp ((IsReadFrom.hasName_iff hqp).mp hname)
  · obtain ⟨p, hp, hname, hunknown, hspan⟩ := hunknown
    obtain ⟨q, hq, hqp⟩ := exists_of_forall₂ hread hp
    exact .inr ⟨q, .unknownFrequency hproperty hdistinct hq (hqp.shows_iff.mpr ⟨hname, rfl⟩)
      hunknown, hspan.trans hqp.2⟩

variable {whole : Span} {frequency : Frequency}
  (hfrequency : Property.readFrequency whole ps = .ok frequency)

include hfrequency

theorem hasFrequency_of_readFrequency : HasFrequency qs frequency := by
  obtain ⟨⟨p, hp, hname⟩, hunique⟩ := Property.exists_of_readFrequency hfrequency hnodup
  obtain ⟨q, hq, hqp⟩ := exists_of_forall₂ hread hp
  exact ⟨q, hq, p.value, hqp.shows_iff.mpr ⟨hname, rfl⟩, hunique p hp hname⟩

theorem isAtFault_of_foldlM {e : Located Fault}
    (h : ps.foldlM Draft.enterProperty (Draft.ofFrequency frequency) = .error e) :
    ∃ q, IsAtFault qs q ∧ e.span = q.span := by
  obtain ⟨-, hunique⟩ := Property.exists_of_readFrequency hfrequency hnodup
  obtain ⟨before, p, after, hsplit, haccepted, hrefused, hspan⟩ :=
    Property.exists_of_foldlM_enterProperty hunique h
  obtain ⟨before', q, after', hqs, hbefore, hq⟩ := exists_segment_behind hread hsplit
  exact ⟨q, .refused (isProperty_of_isReadFrom hread)
    ((Property.distinctNames_iff hread).mpr hnodup)
    (hasFrequency_of_readFrequency hread hnodup hfrequency) hqs
    (isAccepted_of_isReadFrom hbefore haccepted) (hq.isAccepted_iff.not.mpr hrefused),
    hspan.trans hq.2⟩

theorem isAtFault_of_secondEnding? {d : Draft} {p : Property}
    (hentered : ps.foldlM Draft.enterProperty (Draft.ofFrequency frequency) = .ok d)
    (h : Property.secondEnding? ps = some p) : ∃ q, IsAtFault qs q ∧ p.span = q.span := by
  obtain ⟨-, hunique⟩ := Property.exists_of_readFrequency hfrequency hnodup
  have haccepted := (Property.exists_foldlM_iff hunique).mp ⟨d, hentered⟩
  obtain ⟨before, after, hsplit, k₁, k₂, hendings, hsecond, first, hfirst, hname⟩ :=
    Property.exists_of_secondEnding?_eq_some hnodup h
  obtain ⟨before', q, after', hqs, hbefore, hq⟩ := exists_segment_behind hread hsplit
  obtain ⟨q', hq', hfirst⟩ := exists_of_forall₂ hbefore hfirst
  exact ⟨q, .secondEnding (isProperty_of_isReadFrom hread)
    ((Property.distinctNames_iff hread).mpr hnodup)
    (hasFrequency_of_readFrequency hread hnodup hfrequency)
    (isAccepted_of_isReadFrom hread haccepted) hqs hendings
    ⟨hq.hasName_iff.mpr hsecond, q', hq', (IsReadFrom.hasName_iff hfirst).mpr hname⟩, hq.2⟩

end Located

/-- A fault of properties lies at the segment from which the one at fault was read, or the
frequency is missing. -/
theorem isAtFault_of_ofProperties {whole : Span} {e : Located Fault}
    (hread : List.Forall₂ IsReadFrom qs ps) (h : ofProperties whole ps = .error e) :
    LacksFrequency qs ∧ e = ⟨.missingFrequency, whole⟩ ∨
      ∃ q, IsAtFault qs q ∧ e.span = q.span := by
  rcases cases_of_ofProperties h with ⟨p, hrepeated, hspan⟩ | ⟨hrepeated, h⟩
  · exact .inr (hspan ▸ isAtFault_of_findRepeated? hread hrepeated)
  have hnodup := (Property.findRepeated?_eq_none_iff_nodup.mp hrepeated).2
  rcases h with hmissing | ⟨frequency, hfrequency, h⟩
  · exact isAtFault_of_readFrequency hread hnodup hmissing
  rcases h with hrefused | ⟨d, hentered, p, hsecond, hspan⟩
  · exact .inr (isAtFault_of_foldlM hread hnodup hfrequency hrefused)
  · exact .inr (hspan ▸ isAtFault_of_secondEnding? hread hnodup hfrequency hentered hsecond)

/-- A fault in a text comes with the byte range of the segment at fault, or with that of the
text if the frequency is missing. -/
theorem read_eq_error {e : Located Fault} (h : read cs = .error e) :
    ∃ qs, Text.ListsAll (IsSegment cs) qs ∧
      (LacksFrequency qs ∧ e = ⟨.missingFrequency, ⟨0, byteLength cs⟩⟩ ∨
        ∃ p, IsAtFault qs p ∧ e.span = p.span) := by
  refine ⟨_, listsAll_pieces cs, ?_⟩
  rcases bind_eq_error_iff.mp h with hread | ⟨ps, hread, h⟩
  · obtain ⟨before, q, after, hqs, hbefore, hq⟩ := exists_of_mapM_eq_error hread
    obtain ⟨hfault, hspan⟩ := Property.not_isProperty_of_ofPiece hq
    refine .inr ⟨q, .malformed hqs (fun q' hq' => ?_) hfault, hspan⟩
    obtain ⟨p, hp⟩ := hbefore q' hq'
    exact ⟨p.name, p.value, (Property.ofPiece_eq_ok_iff.mp hp).1⟩
  · have hread := (mapM_eq_ok_iff_of_iff fun _ _ => Property.ofPiece_eq_ok_iff).mp hread
    exact isAtFault_of_ofProperties hread h

/-- A text is refused as a whole if it is blank, and with the fault that was read if not. -/
theorem parse_eq_error_iff {text : String} {d : Diagnostic} :
    parse text = .error d ↔
      trim text.toList = [] ∧ .argument "rule text is empty" = d ∨
        trim text.toList ≠ [] ∧ ∃ e, read text.toList = .error e ∧
          .rule e.value.message ⟨e.span, text⟩ = d := by
  rw [parse]
  by_cases hblank : trim text.toList = []
  · simp [hblank]
  · simp [hblank, mapError_eq_error_iff]

end Rule
end Timetable
