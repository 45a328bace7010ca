import Timetable.Proofs.Cron.Faults
import Timetable.Proofs.Rule.Faults
import Timetable.Proofs.Text.Bytes

/-!
# Faults and where they lie

A text that is refused as a rule or as a cron expression comes back with the byte range of the
part at fault: `parse_errors_are_located`.

The report of a fault ends with an underline.  It stands below the part at fault if every
character up to the end of that part is a single byte, and otherwise it is too long or too far
to the right, as it has a column for every byte and the text above it one for every character:
`underline_below_fault_iff`.
-/

namespace Timetable

open Text (trim byteLength ListsAll IsWord LiesIn)

/-! ## Where faults lie -/

/-- Faults of rules and of cron expressions come with the whole text and the range at fault in
it, and no fault is left to be found when a rule is built. -/
theorem parse_errors_are_located (text : String) :
    (∀ d, Rule.parse text = .error d →
      trim text.toList = [] ∧ d = .argument "rule text is empty" ∨
        trim text.toList ≠ [] ∧ ∃ message span qs, d = .rule message ⟨span, text⟩ ∧
          ListsAll (Rule.IsSegment text.toList) qs ∧
          (Rule.LacksFrequency qs →
            message = "missing FREQ" ∧ span = ⟨0, byteLength text.toList⟩) ∧
          (¬ Rule.LacksFrequency qs → ∃ p, Rule.IsAtFault qs p ∧ span = p.span)) ∧
    (∀ whole ps frequency d, Property.findRepeated? [] ps = none →
      Property.readFrequency whole ps = .ok frequency →
      ps.foldlM Draft.enterProperty (Draft.ofFrequency frequency) = .ok d →
      Property.secondEnding? ps = none → ∃ r, d.build = .ok r) ∧
    (∀ d, Cron.parse text = .error d → trim text.toList ≠ [] →
      ∃ message span ws, d = .cron message ⟨span, text⟩ ∧ ListsAll (IsWord text.toList) ws ∧
        (Cron.IsUnknownAlias text.toList ∨ Cron.fieldsOf? ws = none →
          span = ⟨0, byteLength text.toList⟩) ∧
        (¬ (Cron.IsUnknownAlias text.toList ∨ Cron.fieldsOf? ws = none) →
          ∃ p, Cron.IsAtFault ws p ∧ span = p.span)) := by
  refine ⟨fun d hd => ?_, fun whole ps frequency d hrepeated hfrequency hentered hsecond => ?_,
    fun d hd hblank => ?_⟩
  · rcases Rule.parse_eq_error_iff.mp hd with ⟨hblank, rfl⟩ | ⟨hblank, e, he, rfl⟩
    · exact .inl ⟨hblank, rfl⟩
    obtain ⟨qs, hqs, hfault⟩ := Rule.read_eq_error he
    refine .inr ⟨hblank, _, _, qs, rfl, hqs, fun hlacks => ?_, fun hlacks => ?_⟩
    · rcases hfault with ⟨-, rfl⟩ | ⟨p, hp, -⟩
      · exact ⟨rfl, rfl⟩
      · exact absurd hlacks hp.not_lacksFrequency
    · exact hfault.resolve_left fun h => hlacks h.1
  · exact Rule.exists_build_of_entered hrepeated hfrequency hentered hsecond
  · obtain ⟨-, e, he, rfl⟩ := (Cron.parse_eq_error_iff.mp hd).resolve_left fun h => hblank h.1
    obtain ⟨ws, hws, hfault⟩ := Cron.read_eq_error he
    refine ⟨_, _, ws, rfl, hws, fun hwhole => ?_, fun hwhole => ?_⟩
    -- A word at fault is one of the fields, so there are fields and the alias is known.
    · rcases hfault with ⟨-, hspan⟩ | ⟨halias, p, ⟨before, k, after, hfields, -⟩, -⟩
      · exact hspan
      · rw [hfields] at hwhole
        exact (hwhole.elim (fun h => halias h.1) (by simp)).elim
    · obtain ⟨-, hfault⟩ := hfault.resolve_left fun h => hwhole h.1
      exact hfault

/-- A name that no key has, behind a header and a blank, and a word that is no hour: `é` takes
up two bytes in both. -/
theorem accents_are_located :
    Rule.parse "RRULE:FREQ=DAILY; é=1" =
      .error (.rule "unknown property 'é'" ⟨⟨18, 22⟩, "RRULE:FREQ=DAILY; é=1"⟩) ∧
    (∃ qs p, ListsAll (Rule.IsSegment "RRULE:FREQ=DAILY; é=1".toList) qs ∧
      Rule.IsAtFault qs p ∧ p.span = ⟨18, 22⟩) ∧
    (∃ r, (Draft.ofFrequency .daily).build = .ok r) ∧
    Cron.parse "0 é * * *" = .error (.cron "invalid hour value 'é'" ⟨⟨2, 4⟩, "0 é * * *"⟩) ∧
    trim "0 é * * *".toList ≠ [] ∧
    ∃ ws p, ListsAll (IsWord "0 é * * *".toList) ws ∧ Cron.IsAtFault ws p ∧ p.span = ⟨2, 4⟩ := by
  have hrule : Rule.parse "RRULE:FREQ=DAILY; é=1" =
      .error (.rule "unknown property 'é'" ⟨⟨18, 22⟩, "RRULE:FREQ=DAILY; é=1"⟩) := rfl
  have hcron : Cron.parse "0 é * * *" =
      .error (.cron "invalid hour value 'é'" ⟨⟨2, 4⟩, "0 é * * *"⟩) := rfl
  have hblank : trim "0 é * * *".toList ≠ [] := by decide +kernel
  obtain ⟨hrules, hbuilds, -⟩ := parse_errors_are_located "RRULE:FREQ=DAILY; é=1"
  obtain ⟨-, -, hcrons⟩ := parse_errors_are_located "0 é * * *"
  refine ⟨hrule, ?_, ?_, hcron, hblank, ?_⟩
  · obtain ⟨-, hd⟩ | ⟨-, message, span, qs, hd, hqs, hmissing, hfault⟩ := hrules _ hrule
    · contradiction
    obtain ⟨rfl, hplace⟩ := Diagnostic.rule.inj hd
    obtain ⟨rfl, -⟩ := Place.mk.inj hplace
    obtain ⟨p, hp, hspan⟩ := hfault fun hlacks => absurd (hmissing hlacks).1 (by decide)
    exact ⟨qs, p, hqs, hp, hspan.symm⟩
  · exact hbuilds ⟨0, 10⟩ [⟨"FREQ".toList, "DAILY".toList, ⟨0, 10⟩⟩] .daily _ rfl rfl rfl rfl
  · obtain ⟨message, span, ws, hd, hws, hwhole, hfault⟩ := hcrons _ hcron hblank
    obtain ⟨-, hplace⟩ := Diagnostic.cron.inj hd
    obtain ⟨rfl, -⟩ := Place.mk.inj hplace
    obtain ⟨p, hp, hspan⟩ := hfault fun h => absurd (hwhole h) (by decide)
    exact ⟨ws, p, hws, hp, hspan.symm⟩

/-! ## The underline -/

/-- The last line of a text. -/
def Text.lastLine (cs : List Char) : List Char :=
  (cs.reverse.takeWhile (· != '\n')).reverse

namespace Place

/-- Whether the text is the part at fault with something in front of it and something behind. -/
structure Divides (place : Place) (before token after : List Char) : Prop where
  chars_eq : place.input.toList = before ++ (token ++ after)
  span_eq : place.span = ⟨byteLength before, byteLength before + byteLength token⟩

end Place

/-- The underline of a part of a text: a blank for every character in front of it and two for
the indent, and a caret for every character of the part, but at least one. -/
def underlineOf (before token : List Char) : List Char :=
  List.replicate (before.length + 2) ' ' ++ List.replicate (max token.length 1) '^'

theorem Text.lastLine_append_cons {line : List Char} (h : '\n' ∉ line) (cs : List Char) :
    lastLine (cs ++ '\n' :: line) = line := by
  have hline : ∀ c ∈ line.reverse, (c != '\n') = true := by
    intro c hc
    rw [bne_iff_ne]
    rintro rfl
    exact h (List.mem_reverse.mp hc)
  rw [lastLine, List.reverse_append, List.reverse_cons, List.append_assoc,
    List.takeWhile_append_of_pos hline]
  simp

namespace Diagnostic

variable {d : Diagnostic} {place : Place} {before token : List Char} {text : String}

/-- The last line of a report is the underline of the byte range. -/
theorem lastLine_rich (h : d.place? = some place) :
    Text.lastLine d.rich.toList = underline place.span := by
  have hnot : '\n' ∉ underline place.span := by
    simp [underline, List.mem_replicate]
  have hrich : d.rich.toList = ("error: " ++ d.message ++ "\n  " ++ place.input).toList ++
      '\n' :: underline place.span := by
    simp [rich, h]
  rw [hrich]
  exact Text.lastLine_append_cons hnot _

/-- Underlines are the same if they have as many blanks and as many carets. -/
theorem underline_eq_underlineOf_iff {s : Span} :
    underline s = underlineOf before token ↔
      s.start = before.length ∧ max s.length 1 = max token.length 1 := by
  rw [underline, underlineOf]
  constructor
  · intro h
    have hblanks := congrArg (List.count ' ') h
    have hcarets := congrArg (List.count '^') h
    simp only [List.count_append, List.count_replicate_self, List.count_replicate]
      at hblanks hcarets
    exact ⟨by simpa using hblanks, by simpa using hcarets⟩
  · rintro ⟨hstart, hlength⟩
    rw [hstart, hlength]

/-- The underline of a part of a text has a blank and a caret for every character if and only if
all characters up to the end of the part are single bytes. -/
theorem underline_eq_iff_utf8Size :
    underline ⟨byteLength before, byteLength before + byteLength token⟩ =
        underlineOf before token ↔
      ∀ c ∈ before ++ token, c.utf8Size = 1 := by
  have hbefore := Text.length_le_byteLength before
  have htoken := Text.length_le_byteLength token
  have hempty : token.length = 0 → byteLength token = 0 := by
    intro h
    rw [List.eq_nil_of_length_eq_zero h]
    rfl
  rw [underline_eq_underlineOf_iff, List.forall_mem_append, ← Text.byteLength_eq_length_iff,
    ← Text.byteLength_eq_length_iff]
  simp only [Span.length, Nat.add_sub_cancel_left]
  omega

/-- The range at fault is that of a part of the text. -/
theorem exists_divides (h : Rule.parse text = .error d ∨ Cron.parse text = .error d)
    (hplace : d.place? = some place) : ∃ before token after, place.Divides before token after := by
  suffices hpart : place.input = text ∧ ∃ p, LiesIn text.toList p ∧ place.span = p.span by
    obtain ⟨rfl, p, ⟨before, after, hchars, hstart⟩, hspan⟩ := hpart
    exact ⟨before, p.chars, after, hchars, by rw [hspan, Piece.span, hstart]⟩
  have hself := Text.liesIn_self text.toList
  have hwhole : (⟨0, byteLength text.toList⟩ : Span) = (⟨0, text.toList⟩ : Piece).span := by
    rw [Piece.span, Nat.zero_add]
  rcases h with h | h
  · obtain ⟨-, rfl⟩ | ⟨-, e, he, rfl⟩ := Rule.parse_eq_error_iff.mp h
    · simp [place?] at hplace
    obtain rfl := Option.some.inj hplace
    refine ⟨rfl, ?_⟩
    obtain ⟨qs, hqs, ⟨-, rfl⟩ | ⟨p, hp, hspan⟩⟩ := Rule.read_eq_error he
    · exact ⟨_, hself, hwhole⟩
    · exact ⟨p, ((hqs.mem_iff p).mp hp.mem).liesIn, hspan⟩
  · obtain ⟨-, rfl⟩ | ⟨-, e, he, rfl⟩ := Cron.parse_eq_error_iff.mp h
    · simp [place?] at hplace
    obtain rfl := Option.some.inj hplace
    refine ⟨rfl, ?_⟩
    obtain ⟨ws, hws, ⟨-, hspan⟩ | ⟨-, p, hp, hspan⟩⟩ := Cron.read_eq_error he
    · exact ⟨_, hself, hspan.trans hwhole⟩
    · exact ⟨p, ((hws.mem_iff p).mp hp.mem).liesIn, hspan⟩

/-- The underline stands below the part at fault, and is as long, if and only if all characters
up to the end of that part are single bytes. -/
theorem underline_below_fault_iff
    (h : Rule.parse text = .error d ∨ Cron.parse text = .error d)
    (hplace : d.place? = some place) :
    ∃ before token after, place.Divides before token after ∧
      (Text.lastLine d.rich.toList = underlineOf before token ↔
        ∀ c ∈ before ++ token, c.utf8Size = 1) := by
  obtain ⟨before, token, after, hdivides⟩ := exists_divides h hplace
  refine ⟨before, token, after, hdivides, ?_⟩
  rw [lastLine_rich hplace, hdivides.span_eq]
  exact underline_eq_iff_utf8Size

theorem repeatedFrequency_underlined :
    Rule.parse "FREQ=DAILY; FREQ=DAILY" =
      .error (.rule "duplicate property 'FREQ'" ⟨⟨12, 22⟩, "FREQ=DAILY; FREQ=DAILY"⟩) ∧
    place? (.rule "duplicate property 'FREQ'" ⟨⟨12, 22⟩, "FREQ=DAILY; FREQ=DAILY"⟩) =
      some ⟨⟨12, 22⟩, "FREQ=DAILY; FREQ=DAILY"⟩ ∧
    ∃ before token after, Place.Divides ⟨⟨12, 22⟩, "FREQ=DAILY; FREQ=DAILY"⟩ before token after ∧
      (Text.lastLine (rich (.rule "duplicate property 'FREQ'"
          ⟨⟨12, 22⟩, "FREQ=DAILY; FREQ=DAILY"⟩)).toList = underlineOf before token ↔
        ∀ c ∈ before ++ token, c.utf8Size = 1) := by
  have hparse : Rule.parse "FREQ=DAILY; FREQ=DAILY" =
      .error (.rule "duplicate property 'FREQ'" ⟨⟨12, 22⟩, "FREQ=DAILY; FREQ=DAILY"⟩) := rfl
  exact ⟨hparse, rfl, underline_below_fault_iff (.inl hparse) rfl⟩

/-- Behind a letter of two bytes the underline stands one column too far to the right. -/
theorem accent_shifts_underline :
    Rule.parse "X=é;FREQ" =
      .error (.rule "expected KEY=VALUE, got 'FREQ'" ⟨⟨5, 9⟩, "X=é;FREQ"⟩) ∧
    Place.Divides ⟨⟨5, 9⟩, "X=é;FREQ"⟩ "X=é;".toList "FREQ".toList [] ∧
    underlineOf "X=é;".toList "FREQ".toList = "      ^^^^".toList ∧
    Text.lastLine (rich (.rule "expected KEY=VALUE, got 'FREQ'"
      ⟨⟨5, 9⟩, "X=é;FREQ"⟩)).toList = "       ^^^^".toList ∧
    "       ^^^^" ≠ "      ^^^^" := by
  refine ⟨rfl, ⟨by decide +kernel, by decide +kernel⟩, by decide +kernel, ?_, by decide⟩
  rw [lastLine_rich rfl]
  decide +kernel

end Diagnostic
end Timetable
