import Timetable.Proofs.Rule.Entries

/-!
# The grammar of rules

The text of a rule, without the header that may stand in front, is a list of entries with
semicolons between them: a name, an equals sign and a value, with blanks around each of them.
`HasEntries` says which entries a text has.  A text is read if and only if it has entries whose
keys fit each other and whose values are in one of the forms for their keys; then the rule has
what the entries say and nothing else: `Rule.parse_iff_grammar`.
-/

namespace Timetable

open Text (trim upper)

/-! ## Rules for texts -/

/-- Whether a segment shows a name and a value.  The name is taken in capitals. -/
def ShowsProperty (name value segment : List Char) : Prop :=
  ∃ front back, segment = front ++ '=' :: back ∧ '=' ∉ front ∧
    upper (trim front) = name ∧ trim back = value ∧ name ≠ [] ∧ value ≠ []

/-- The segments between semicolons without blanks at their ends, less the blank ones. -/
def segmentTexts (cs : List Char) : List (List Char) :=
  ((cs.splitOn ';').map trim).filter fun segment => !segment.isEmpty

/-- Whether a text is what follows a header, or the whole text if there is none. -/
def IsBody (cs body : List Char) : Prop :=
  (∃ front, upper front = Rule.header ∧ cs = front ++ body) ∨
    body = cs ∧ ∀ front back, cs = front ++ back → upper front ≠ Rule.header

/-- Whether a text that is not blank has entries: a key and the text of its value for each
segment. -/
def HasEntries (cs : List Char) (entries : List (Key × List Char)) : Prop :=
  trim cs ≠ [] ∧ ∃ body, IsBody cs body ∧
    List.Forall₂ (fun segment entry => ShowsProperty entry.1.name.toList entry.2 segment)
      (segmentTexts body) entries

variable {cs : List Char} {entries : List (Key × List Char)}

/-! ## Cutting -/

theorem isBody_iff {body : List Char} : IsBody cs body ↔ (Rule.body cs).2 = body := by
  have hheader {front : List Char} (h : upper front = Rule.header) :
      front.length = Rule.header.length := by
    rw [← h, Text.length_upper]
  by_cases hfront : upper (cs.take Rule.header.length) = Rule.header
  · rw [Rule.body, if_pos hfront]
    constructor
    · intro h
      rcases h with h | h
      · obtain ⟨front, hupper, rfl⟩ := h
        rw [← hheader hupper]
        exact List.drop_left
      · exact absurd hfront (h.2 _ _ (List.take_append_drop _ cs).symm)
    · intro h
      exact .inl ⟨_, hfront, by rw [← h, List.take_append_drop]⟩
  · rw [Rule.body, if_neg hfront]
    have hnone : ∀ front back, cs = front ++ back → upper front ≠ Rule.header := by
      intro front back hcs hupper
      rw [hcs, ← hheader hupper, List.take_left] at hfront
      exact hfront hupper
    constructor
    · intro h
      rcases h with h | h
      · obtain ⟨front, hupper, hcs⟩ := h
        exact absurd hupper (hnone front body hcs)
      · exact h.1.symm
    · intro h
      exact .inr ⟨h.symm, hnone⟩

namespace Property

/-- Whether a property is an entry. -/
def IsEntry (p : Property) (entry : Key × List Char) : Prop :=
  p.name = entry.1.name.toList ∧ p.value = entry.2

theorem ofPiece_eq_ok_iff {piece : Piece} {p : Property} :
    ofPiece piece = .ok p ↔ ShowsProperty p.name p.value piece.chars ∧ p.span = piece.span := by
  rw [ofPiece]
  constructor
  · intro h
    split at h
    next => simp at h
    next front back hdivide =>
      dsimp only at h
      split at h
      next => simp at h
      next hname =>
        split at h
        next => simp at h
        next hvalue =>
          obtain ⟨mark, hmark, hfront, hchars⟩ := Text.divideAt?_eq_some_iff.mp hdivide
          obtain rfl := beq_iff_eq.mp hmark
          have hnot := Text.forall_beq_eq_false_iff.mp hfront
          rw [← Except.ok.inj h]
          exact ⟨⟨front, back, hchars, hnot, rfl, rfl, by simpa using hname,
            by simpa using hvalue⟩, rfl⟩
  · intro h
    obtain ⟨⟨front, back, hchars, hnot, hname, hvalue, hname', hvalue'⟩, hspan⟩ := h
    rw [hchars, Text.divideAt?_eq_some_of_not_mem hnot]
    dsimp only
    rw [hname, hvalue, if_neg (by simpa using hname'), if_neg (by simpa using hvalue'), ← hspan]

theorem chars_pieces (start : Nat) (cs : List Char) :
    (pieces start cs).map Piece.chars = segmentTexts cs := by
  have htrim : (Piece.chars ∘ Piece.trim : Piece → List Char) = trim ∘ Piece.chars := rfl
  have hblank : (fun p : Piece => !p.chars.isEmpty) =
      (fun segment : List Char => !segment.isEmpty) ∘ Piece.chars := rfl
  rw [pieces, hblank, ← List.filter_map, List.map_map, htrim, ← List.map_map, Text.segments,
    Text.chars_splitWhere]
  rfl

/-- Properties are read if and only if the segments show them. -/
theorem exists_mapM_ofPiece_iff {qs : List Piece} :
    (∃ ps, qs.mapM ofPiece = .ok ps ∧ List.Forall₂ IsEntry ps entries) ↔
      List.Forall₂ (fun segment entry => ShowsProperty entry.1.name.toList entry.2 segment)
        (qs.map Piece.chars) entries := by
  have hpiece (piece : Piece) (entry : Key × List Char) :
      (∃ p, ofPiece piece = .ok p ∧ p.IsEntry entry) ↔
        ShowsProperty entry.1.name.toList entry.2 piece.chars := by
    simp only [ofPiece_eq_ok_iff]
    constructor
    · intro h
      obtain ⟨p, ⟨hshows, -⟩, hname, hvalue⟩ := h
      rwa [hname, hvalue] at hshows
    · intro h
      exact ⟨⟨entry.1.name.toList, entry.2, piece.span⟩, ⟨h, rfl⟩, rfl, rfl⟩
  simp only [mapM_eq_ok_iff_forall₂, exists_forall₂_and_forall₂_iff, hpiece,
    List.forall₂_map_left_iff]

/-! ## Entries among the properties -/

variable {ps : List Property}

theorem map_name_of_isEntry (h : List.Forall₂ IsEntry ps entries) :
    ps.map Property.name = (Draft.entryKeys entries).map fun key => key.name.toList := by
  induction h with
  | nil => rfl
  | cons hentry _ ih =>
      rw [List.map_cons, hentry.1, ih]
      rfl

/-- The frequency is what the entry for it says. -/
theorem readFrequency_eq_ok_iff (h : List.Forall₂ IsEntry ps entries)
    (hnodup : (Draft.entryKeys entries).Nodup) {whole : Span} {frequency : Frequency} :
    readFrequency whole ps = .ok frequency ↔
      ∃ cs, (Key.frequency, cs) ∈ entries ∧ frequency.token.toList = upper cs := by
  induction h with
  | nil => simp [readFrequency]
  | @cons p entry ps entries hentry _ ih =>
      obtain ⟨key, cs⟩ := entry
      obtain ⟨hname, hvalue⟩ : p.name = key.name.toList ∧ p.value = cs := hentry
      obtain ⟨hkey, hnodup⟩ := List.nodup_cons.mp hnodup
      by_cases hfrequency : key = .frequency
      · subst hfrequency
        have hother (ds : List Char) : (Key.frequency, ds) ∉ entries := by
          intro hmem
          exact hkey (List.mem_map.mpr ⟨_, hmem, rfl⟩)
        have hread : readFrequency whole (p :: ps) = .ok frequency ↔
            frequency.token.toList = upper cs := by
          rw [readFrequency, List.find?_cons_of_pos (by simp [hasKey_eq hname]),
            ← ofFrequencyToken?_eq_some_iff, ← hvalue]
          dsimp only
          split
          next hnone => simp [hnone]
          next hsome => simp [hsome]
        rw [hread]
        simp [hother]
      · have hread : readFrequency whole (p :: ps) = readFrequency whole ps := by
          rw [readFrequency, List.find?_cons_of_neg (by simp [hasKey_eq hname, hfrequency])]
          rfl
        rw [hread, ih hnodup]
        simp [Ne.symm hfrequency]

theorem enterProperty_eq_ok_iff {acc acc' : Draft} {p : Property} {entry : Key × List Char}
    (h : p.IsEntry entry) :
    acc.enterProperty p = .ok acc' ↔ acc.enter entry.1 entry.2 = .ok acc' := by
  rw [Draft.enterProperty, h.1, h.2, Key.ofName?_name]
  exact mapError_eq_ok_iff

theorem foldlM_enterProperty_eq_ok_iff {acc acc' : Draft} (h : List.Forall₂ IsEntry ps entries) :
    ps.foldlM Draft.enterProperty acc = .ok acc' ↔ acc.enterAll entries = .ok acc' := by
  rw [Draft.enterAll]
  induction h generalizing acc with
  | nil => rw [List.foldlM_nil, List.foldlM_nil, pure_eq_ok_iff, pure_eq_ok_iff]
  | cons hentry _ ih =>
      simp only [List.foldlM_cons, bind_eq_ok_iff, enterProperty_eq_ok_iff hentry, ih]

/-- Properties that are entered have names of keys. -/
theorem exists_entries_of_foldlM {acc acc' : Draft}
    (h : ps.foldlM Draft.enterProperty acc = .ok acc') :
    ∃ entries, List.Forall₂ IsEntry ps entries := by
  induction ps generalizing acc with
  | nil => exact ⟨[], .nil⟩
  | cons p ps ih =>
      rw [List.foldlM_cons] at h
      obtain ⟨mid, hmid, h⟩ := bind_eq_ok_iff.mp h
      obtain ⟨entries, hentries⟩ := ih h
      have hmid := mapError_eq_ok_iff.mp hmid
      split at hmid
      next => simp at hmid
      next key hkey =>
        have hname : key.name.toList = p.name :=
          (Lists.find?_beq_eq_some_iff Key.ofName?_name).mp hkey
        exact ⟨(key, p.value) :: entries, .cons ⟨hname.symm, rfl⟩ hentries⟩

end Property

namespace Rule

/-- What was entered is what the entries say. -/
theorem isWrittenAs_of_entered {whole : Span} {ps : List Property} {frequency : Frequency}
    {d : Draft} (h : List.Forall₂ Property.IsEntry ps entries)
    (hnodup : (Draft.entryKeys entries).Nodup)
    (hfrequency : Property.readFrequency whole ps = .ok frequency)
    (hentered : (Draft.ofFrequency frequency).enterAll entries = .ok d)
    (hsecond : Property.secondEnding? ps = none) : d.IsWrittenAs entries := by
  have hnames := Property.map_name_of_isEntry h
  obtain ⟨cs, hmem, htoken⟩ := (Property.readFrequency_eq_ok_iff h hnodup).mp hfrequency
  have hunique : ∀ ds, (Key.frequency, ds) ∈ entries → frequency.token.toList = upper ds := by
    intro ds hds
    rwa [Prod.mk.inj (List.inj_on_of_nodup_map hnodup hmem hds rfl) |>.2] at htoken
  obtain ⟨hsame, hgiven, hothers⟩ := (Draft.enterAll_eq_ok_iff hnodup hunique).mp hentered
  obtain rfl : d.frequency = frequency := hsame
  have hendings := (Property.secondEnding?_eq_none_iff_of_names hnames hnodup).mp hsecond
  exact ⟨⟨hnodup, List.mem_map_of_mem hmem, hendings⟩, hgiven, hothers⟩

/-- Entries make the rule that is built from what they say. -/
theorem ofProperties_eq_ok_iff_isWrittenAs {whole : Span} {ps : List Property} {r : Rule}
    (h : List.Forall₂ Property.IsEntry ps entries) :
    ofProperties whole ps = .ok r ↔ ∃ d : Draft, d.IsWrittenAs entries ∧ d.build = .ok r := by
  have hnames := Property.map_name_of_isEntry h
  rw [ofProperties_eq_ok_iff, Property.findRepeated?_eq_none_iff_of_names hnames]
  simp only [Property.foldlM_enterProperty_eq_ok_iff h]
  constructor
  · intro hread
    obtain ⟨hnodup, frequency, hfrequency, d, hentered, hsecond, hbuild⟩ := hread
    exact ⟨d, isWrittenAs_of_entered h hnodup hfrequency hentered hsecond, hbuild⟩
  · intro hwritten
    obtain ⟨d, hd, hbuild⟩ := hwritten
    have hunique : ∀ cs, (Key.frequency, cs) ∈ entries →
        (Draft.ofFrequency d.frequency).frequency.token.toList = upper cs :=
      fun cs hcs => hd.given _ hcs
    obtain ⟨⟨_, cs⟩, hmem, rfl⟩ := List.mem_map.mp hd.frequency_mem
    refine ⟨hd.nodup, d.frequency, ?_, d, ?_, ?_, hbuild⟩
    · exact (Property.readFrequency_eq_ok_iff h hd.nodup).mpr ⟨cs, hmem, hunique cs hmem⟩
    · exact (Draft.enterAll_eq_ok_iff hd.nodup hunique).mpr ⟨rfl, hd.given, hd.others⟩
    · exact (Property.secondEnding?_eq_none_iff_of_names hnames hd.nodup).mpr hd.endings

/-- Nothing that was entered is refused when the rule is built. -/
theorem exists_build_of_entered {whole : Span} {ps : List Property} {frequency : Frequency}
    {d : Draft} (hrepeated : Property.findRepeated? [] ps = none)
    (hfrequency : Property.readFrequency whole ps = .ok frequency)
    (hentered : ps.foldlM Draft.enterProperty (Draft.ofFrequency frequency) = .ok d)
    (hsecond : Property.secondEnding? ps = none) : ∃ r, d.build = .ok r := by
  obtain ⟨entries, hentries⟩ := Property.exists_entries_of_foldlM hentered
  have hnodup := (Property.findRepeated?_eq_none_iff_of_names
    (Property.map_name_of_isEntry hentries)).mp hrepeated
  have henteredAll := (Property.foldlM_enterProperty_eq_ok_iff hentries).mp hentered
  exact Draft.exists_build_of_isWrittenAs
    (isWrittenAs_of_entered hentries hnodup hfrequency henteredAll hsecond)

/-- Entries say something if and only if their keys fit and their values are accepted. -/
theorem exists_isWrittenAs_iff :
    (∃ d : Draft, d.IsWrittenAs entries) ↔
      Draft.KeysFit entries ∧
        ∃ frequency, ∀ entry ∈ entries, entry.1.Accepts frequency entry.2 := by
  constructor
  · intro h
    obtain ⟨d, hd⟩ := h
    exact ⟨hd.toKeysFit, d.frequency, fun entry hentry => ⟨d, rfl, hd.given entry hentry⟩⟩
  · intro h
    obtain ⟨hkeys, frequency, haccepts⟩ := h
    have hfrequency : ∀ cs, (Key.frequency, cs) ∈ entries →
        (Draft.ofFrequency frequency).frequency.token.toList = upper cs := by
      intro cs hcs
      obtain ⟨d, rfl, hgiven⟩ := haccepts _ hcs
      exact hgiven
    obtain ⟨d, hd⟩ := (Draft.exists_enterAll_iff hfrequency).mpr haccepts
    obtain ⟨hsame, hgiven, hothers⟩ := (Draft.enterAll_eq_ok_iff hkeys.nodup hfrequency).mp hd
    obtain rfl : d.frequency = frequency := hsame
    exact ⟨d, hkeys, hgiven, hothers⟩

/-- A text is read if and only if it has entries, and then the rule is built from what they
say. -/
theorem parse_eq_ok_iff {text : String} {r : Rule} :
    parse text = .ok r ↔ ∃ entries, HasEntries text.toList entries ∧
      ∃ d : Draft, d.IsWrittenAs entries ∧ d.build = .ok r := by
  have hread : parse text = .ok r ↔ trim text.toList ≠ [] ∧ read text.toList = .ok r := by
    rw [parse]
    by_cases hblank : trim text.toList = []
    · simp [hblank]
    · simp [hblank, mapError_eq_ok_iff]
  rw [hread, read]
  simp only [HasEntries, isBody_iff, exists_eq_left', bind_eq_ok_iff, Property.readAll,
    ← Property.chars_pieces (body text.toList).1, ← Property.exists_mapM_ofPiece_iff]
  constructor
  · intro h
    obtain ⟨hblank, ps, hps, h⟩ := h
    obtain ⟨-, _, -, _, hentered, -⟩ := ofProperties_eq_ok_iff.mp h
    obtain ⟨entries, hentries⟩ := Property.exists_entries_of_foldlM hentered
    exact ⟨entries, ⟨hblank, ps, hps, hentries⟩, (ofProperties_eq_ok_iff_isWrittenAs hentries).mp h⟩
  · intro h
    obtain ⟨entries, ⟨hblank, ps, hps, hentries⟩, hwritten⟩ := h
    exact ⟨hblank, ps, hps, (ofProperties_eq_ok_iff_isWrittenAs hentries).mpr hwritten⟩

/-- Which texts are read as rules, and what the rules have. -/
theorem parse_iff_grammar (text : String) :
    ((∃ r, parse text = .ok r) ↔
      ∃ entries, HasEntries text.toList entries ∧ Draft.KeysFit entries ∧
        ∃ frequency, ∀ entry ∈ entries, entry.1.Accepts frequency entry.2) ∧
    ∀ r, parse text = .ok r →
      ∃ entries, HasEntries text.toList entries ∧ r.toDraft.IsWrittenAs entries := by
  simp only [parse_eq_ok_iff, ← exists_isWrittenAs_iff]
  constructor
  · constructor
    · intro h
      obtain ⟨r, entries, hentries, d, hd, -⟩ := h
      exact ⟨entries, hentries, d, hd⟩
    · intro h
      obtain ⟨entries, hentries, d, hd⟩ := h
      obtain ⟨r, hr⟩ := Draft.exists_build_of_isWrittenAs hd
      exact ⟨r, entries, hentries, d, hd, hr⟩
  · intro r hr
    obtain ⟨entries, hentries, d, hd, hbuild⟩ := hr
    exact ⟨entries, hentries, (Draft.toDraft_of_build hbuild).2.symm ▸ hd⟩

end Rule
end Timetable
