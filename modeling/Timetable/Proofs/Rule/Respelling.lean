import Mathlib.Data.List.Perm.Basic
import Mathlib.Logic.Relation
import Timetable.Proofs.Rule.Grammar
import Timetable.Proofs.Rule.Spelling

/-!
# Spellings of a rule

The text of a rule is a list of segments with semicolons between them.  The same segments can
be spelled in many ways: in another order, with blank segments among them, with blanks at
their ends, around equals signs and around the commas of lists, and with letters in either
case.  `Respells` says which lists of segments come from which by such changes, and
`HasSegments` puts them into a text, with the header in front or without it.

Every change leaves alone what the segments tell of a rule (`isToldBy_iff_of_respells`), so all
spellings are read as the same rule or none is read: `Rule.parse_eq_ok_iff_of_respells`.  Only
an equals sign in the value of a deadline has to be left as it is, because there a blank can
move the bytes that the reader of deadlines passes over: `Rule.dividedDeadline_not_respelled`.
-/

namespace Timetable

open Text (trim upper items AllBlank)

variable {d : Draft} {key : Key} {cs ds bs front back segment : List Char}

/-! ## What a segment tells -/

/-- Whether a segment tells what a draft has for a key. -/
def Draft.Tells (d : Draft) (key : Key) (segment : List Char) : Prop :=
  ∃ value, ShowsProperty key.name.toList value segment ∧ d.IsGivenBy value key

theorem mem_equals_of_tells (h : d.Tells key segment) : '=' ∈ segment := by
  obtain ⟨_, ⟨front, back, rfl, -⟩, -⟩ := h
  simp

/-- A segment is divided at its first equals sign. -/
theorem tells_append_cons_iff (h : '=' ∉ front) :
    d.Tells key (front ++ '=' :: back) ↔
      upper (trim front) = key.name.toList ∧ trim back ≠ [] ∧ d.IsGivenBy (trim back) key := by
  constructor
  · rintro ⟨value, ⟨front', back', hparts, hnot, hname, rfl, -, hvalue⟩, hgiven⟩
    have hdivide := Text.divideAt?_eq_some_of_not_mem h back
    rw [hparts, Text.divideAt?_eq_some_of_not_mem hnot] at hdivide
    obtain ⟨rfl, rfl⟩ := Prod.mk.inj (Option.some.inj hdivide)
    exact ⟨hname, hvalue, hgiven⟩
  · rintro ⟨hname, hvalue, hgiven⟩
    exact ⟨_, ⟨front, back, rfl, h, hname, rfl, key.isPlain_name.1, hvalue⟩, hgiven⟩

/-- A value with an equals sign tells something of a deadline only. -/
theorem not_tells_of_mem_equals (h : '=' ∉ front) (hback : '=' ∈ back)
    (hname : upper (trim front) ≠ Key.deadline.name.toList) :
    ¬ d.Tells key (front ++ '=' :: back) := by
  rw [tells_append_cons_iff h]
  rintro ⟨hkey, -, hgiven⟩
  have hne : key ≠ .deadline := by
    rintro rfl
    exact hname hkey
  exact Draft.not_mem_equals_of_isGivenBy hne hgiven (Text.mem_trim rfl hback)

/-- To compare what two segments tell, one of them may be divided at an equals sign, as they
tell nothing without one. -/
theorem tells_congr (hmem : '=' ∈ ds ↔ '=' ∈ cs)
    (h : ∀ front back, cs = front ++ '=' :: back → '=' ∉ front →
      (d.Tells key ds ↔ d.Tells key cs)) : d.Tells key ds ↔ d.Tells key cs := by
  by_cases hcs : '=' ∈ cs
  · obtain ⟨front, back, hparts, hfront⟩ := List.eq_append_cons_of_mem hcs
    exact h front back hparts hfront
  · exact iff_of_false (fun hds => hcs (hmem.mp (mem_equals_of_tells hds)))
      fun hcs' => hcs (mem_equals_of_tells hcs')

theorem tells_blank_append_iff (hbs : AllBlank bs) : d.Tells key (bs ++ cs) ↔ d.Tells key cs := by
  have hnot := Text.not_mem_of_allBlank hbs (m := '=') rfl
  refine tells_congr (by simp [hnot]) ?_
  rintro front back rfl hfront
  rw [← List.append_assoc, tells_append_cons_iff hfront,
    tells_append_cons_iff (by simp [hnot, hfront]), Text.trim_blank_append hbs]

theorem tells_append_blank_iff (hbs : AllBlank bs) : d.Tells key (cs ++ bs) ↔ d.Tells key cs := by
  have hnot := Text.not_mem_of_allBlank hbs (m := '=') rfl
  refine tells_congr (by simp [hnot]) ?_
  rintro front back rfl hfront
  rw [List.append_assoc, List.cons_append, tells_append_cons_iff hfront,
    tells_append_cons_iff hfront, Text.trim_append_blank hbs]

/-- A segment tells the same without the blanks at its ends. -/
theorem tells_trim_iff : d.Tells key (trim cs) ↔ d.Tells key cs := by
  obtain ⟨bs, bs', hbs, hbs', hcs⟩ := Text.exists_eq_trim cs
  calc d.Tells key (trim cs)
    _ ↔ d.Tells key (trim cs ++ bs') := (tells_append_blank_iff hbs').symm
    _ ↔ d.Tells key (bs ++ (trim cs ++ bs')) := (tells_blank_append_iff hbs).symm
    _ ↔ d.Tells key cs := by rw [← hcs]

/-- A segment tells the same in either case of letters. -/
theorem tells_upper_iff : d.Tells key (upper cs) ↔ d.Tells key cs := by
  refine tells_congr (Text.mem_upper_iff rfl) ?_
  rintro front back rfl hfront
  have hupper : upper (front ++ '=' :: back) = upper front ++ '=' :: upper back := by
    rw [Text.upper_append]
    rfl
  rw [hupper, tells_append_cons_iff hfront,
    tells_append_cons_iff (by rwa [Text.mem_upper_iff rfl]), Text.trim_upper, Text.trim_upper,
    Text.upper_upper, Draft.isGivenBy_upper_iff]
  simp [upper]

/-- A list tells the same with other blanks around its items. -/
theorem tells_congr_items (hkey : key.HasList) (hfront : '=' ∉ front)
    (hname : upper (trim front) = key.name.toList) (hcs : ',' ∈ cs) (hds : ',' ∈ ds)
    (hitems : (items cs).map trim = (items ds).map trim) {key' : Key} :
    d.Tells key' (front ++ '=' :: cs) ↔ d.Tells key' (front ++ '=' :: ds) := by
  rw [tells_append_cons_iff hfront, tells_append_cons_iff hfront, hname]
  apply and_congr_right
  intro hsame
  obtain rfl := Key.injective_name hsame
  have hvalues : (items (trim cs)).map trim = (items (trim ds)).map trim := by
    rw [Text.map_trim_items_trim, Text.map_trim_items_trim, hitems]
  rw [Draft.isGivenBy_congr_items hkey hvalues]
  exact and_congr_left fun _ => iff_of_true (List.ne_nil_of_mem (Text.mem_trim rfl hcs))
    (List.ne_nil_of_mem (Text.mem_trim rfl hds))

/-! ## Spellings of a segment -/

/-- Whether the beginning of a segment reaches into the value of a key. -/
def ReachesValue (key : Key) (front : List Char) : Prop :=
  ∃ name value, front = name ++ '=' :: value ∧ '=' ∉ name ∧
    upper (trim name) = key.name.toList

/-- Whether blanks may stand between two parts of a segment: at the ends of the segment, on
either side of an equals sign, and on either side of a comma of a list.  With
`inDeadlines` this goes for the equals signs in the value of a deadline as well. -/
inductive IsJoint (inDeadlines : Prop) : List Char → List Char → Prop
  | front (cs : List Char) : IsJoint inDeadlines [] cs
  | back (cs : List Char) : IsJoint inDeadlines cs []
  | beforeEquals {cs : List Char} (h : ReachesValue .deadline cs → inDeadlines)
      (ds : List Char) : IsJoint inDeadlines cs ('=' :: ds)
  | afterEquals {cs : List Char} (h : ReachesValue .deadline cs → inDeadlines)
      (ds : List Char) : IsJoint inDeadlines (cs ++ ['=']) ds
  | beforeComma {key : Key} (hkey : key.HasList) {cs : List Char} (h : ReachesValue key cs)
      (ds : List Char) : IsJoint inDeadlines cs (',' :: ds)
  | afterComma {key : Key} (hkey : key.HasList) {cs : List Char} (h : ReachesValue key cs)
      (ds : List Char) : IsJoint inDeadlines (cs ++ [',']) ds

/-- Blanks put into a segment, or letters put into the other case. -/
inductive RespellsSegment (inDeadlines : Prop) : List Char → List Char → Prop
  | blanks {front back bs : List Char} (hjoint : IsJoint inDeadlines front back)
      (hbs : AllBlank bs) : RespellsSegment inDeadlines (front ++ back) (front ++ (bs ++ back))
  | letters {cs ds : List Char} (h : upper cs = upper ds) : RespellsSegment inDeadlines cs ds

/-- After another equals sign none can follow, unless it is in the value of a deadline. -/
theorem not_tells_of_later_equals (h : ¬ ReachesValue .deadline cs) (hcs : '=' ∈ cs)
    (hds : '=' ∈ ds) : ¬ d.Tells key (cs ++ ds) := by
  obtain ⟨name, value, rfl, hname⟩ := List.eq_append_cons_of_mem hcs
  rw [List.append_assoc, List.cons_append]
  exact not_tells_of_mem_equals hname (List.mem_append_right value hds)
    fun hkey => h ⟨name, value, rfl, hname, hkey⟩

theorem tells_iff_of_insert (hjoint : IsJoint False front back) (hbs : AllBlank bs) :
    d.Tells key (front ++ (bs ++ back)) ↔ d.Tells key (front ++ back) := by
  cases hjoint with
  | front => exact tells_blank_append_iff hbs
  | back =>
      rw [List.append_nil, List.append_nil]
      exact tells_append_blank_iff hbs
  | beforeEquals h ds =>
      -- Only the first equals sign divides the segment; a later one makes the value unreadable
      -- with blanks beside it and without.
      by_cases hmem : '=' ∈ front
      · exact iff_of_false (not_tells_of_later_equals h hmem (by simp))
          (not_tells_of_later_equals h hmem (by simp))
      · have hbs' := Text.not_mem_of_allBlank hbs (m := '=') rfl
        rw [← List.append_assoc, tells_append_cons_iff hmem,
          tells_append_cons_iff (by simp [hmem, hbs']), Text.trim_append_blank hbs]
  | @afterEquals cs h =>
      simp only [List.append_assoc, List.singleton_append]
      by_cases hmem : '=' ∈ cs
      · exact iff_of_false (not_tells_of_later_equals h hmem (by simp))
          (not_tells_of_later_equals h hmem (by simp))
      · rw [tells_append_cons_iff hmem, tells_append_cons_iff hmem, Text.trim_blank_append hbs]
  | beforeComma hkey h ds =>
      obtain ⟨name, value, rfl, hname, hkeyName⟩ := h
      simp only [List.append_assoc, List.cons_append]
      apply tells_congr_items hkey hname hkeyName (by simp) (by simp)
      rw [← List.append_assoc, Text.items_append_cons, Text.items_append_cons, List.map_append,
        List.map_append, Text.map_trim_items_append_blank hbs]
  | afterComma hkey h =>
      obtain ⟨name, value, rfl, hname, hkeyName⟩ := h
      simp only [List.append_assoc, List.cons_append, List.nil_append]
      apply tells_congr_items hkey hname hkeyName (by simp) (by simp)
      rw [Text.items_append_cons, Text.items_append_cons, List.map_append, List.map_append,
        Text.map_trim_items_blank_append hbs]

theorem tells_iff_of_respellsSegment (h : RespellsSegment False cs ds) :
    d.Tells key ds ↔ d.Tells key cs := by
  cases h with
  | blanks hjoint hbs => exact tells_iff_of_insert hjoint hbs
  | letters h => rw [← tells_upper_iff, ← h, tells_upper_iff]

/-- A segment is blank in all its spellings or in none. -/
theorem allBlank_iff_of_respellsSegment {inDeadlines : Prop}
    (h : RespellsSegment inDeadlines cs ds) : AllBlank ds ↔ AllBlank cs := by
  cases h with
  | blanks hjoint hbs =>
      simp only [AllBlank, List.forall_mem_append]
      exact and_congr_right fun _ => and_iff_right hbs
  | letters h =>
      have htrim : upper (trim cs) = upper (trim ds) := by
        rw [← Text.trim_upper, h, Text.trim_upper]
      rw [← Text.trim_eq_nil_iff, ← Text.trim_eq_nil_iff, ← List.map_eq_nil_iff, ← upper, ← htrim,
        upper, List.map_eq_nil_iff]

theorem isBlank_of_mem_header : ∀ c ∈ Rule.header, Text.isBlank c = false := by
  have hall : (Rule.header.all fun c => !Text.isBlank c) = true := by decide
  simpa using hall

/-- No spelling of a segment begins with the header if the segment does not. -/
theorem header_prefix_of_respellsSegment {inDeadlines : Prop}
    (h : RespellsSegment inDeadlines cs ds) (hheader : Rule.header <+: upper (trim ds)) :
    Rule.header <+: upper (trim cs) := by
  cases h with
  | blanks hjoint hbs =>
      -- The header has no blanks, so it stands in front of those that are put in.
      exact Text.prefix_upper_trim_of_insert isBlank_of_mem_header hbs hheader
  | letters h => rwa [← Text.trim_upper, h, Text.trim_upper]

/-! ## Spellings of a rule -/

/-- One change in the spelling of a rule's segments: they are put in another order, a blank
one is put in, or one of them is spelled in another way. -/
inductive RespellsOnce (inDeadlines : Prop) : List (List Char) → List (List Char) → Prop
  | order {segments segments' : List (List Char)} (h : segments.Perm segments') :
      RespellsOnce inDeadlines segments segments'
  | blank {bs : List Char} (hbs : AllBlank bs) (before after : List (List Char)) :
      RespellsOnce inDeadlines (before ++ after) (before ++ bs :: after)
  | segment {cs ds : List Char} (h : RespellsSegment inDeadlines cs ds)
      (before after : List (List Char)) :
      RespellsOnce inDeadlines (before ++ cs :: after) (before ++ ds :: after)

/-- Any number of changes in the spelling of a rule's segments. -/
def Respells (inDeadlines : Prop) : List (List Char) → List (List Char) → Prop :=
  Relation.ReflTransGen (RespellsOnce inDeadlines)

/-- Whether texts can be the segments of a rule of which none begins with the header. -/
def AreSegments (segments : List (List Char)) : Prop :=
  ∀ segment ∈ segments, ';' ∉ segment ∧ ¬ Rule.header <+: upper (trim segment)

/-- Whether a text consists of segments with semicolons between them, with the header in
front, in any case of letters, or without it. -/
def HasSegments (cs : List Char) (segments : List (List Char)) : Prop :=
  ∃ header, (header = [] ∨ upper header = Rule.header) ∧
    cs = header ++ [';'].intercalate segments

/-- The segments without blanks at their ends, less the blank ones. -/
def shownSegments (segments : List (List Char)) : List (List Char) :=
  (segments.map trim).filter fun segment => !segment.isEmpty

/-- Whether segments tell what a draft has, and nothing else. -/
def Draft.IsToldBy (d : Draft) (segments : List (List Char)) : Prop :=
  ∃ entries, List.Forall₂ (fun segment entry => ShowsProperty entry.1.name.toList entry.2 segment)
      (shownSegments segments) entries ∧ d.IsWrittenAs entries

section

variable {segments segments' : List (List Char)} {entries entries' : List (Key × List Char)}

theorem not_mem_of_respellsSegment {inDeadlines : Prop} (h : RespellsSegment inDeadlines cs ds)
    (hcs : ';' ∉ cs) : ';' ∉ ds := by
  cases h with
  | blanks hjoint hbs =>
      have hnot := Text.not_mem_of_allBlank hbs (m := ';') rfl
      simp only [List.mem_append, not_or] at hcs ⊢
      exact ⟨hcs.1, hnot, hcs.2⟩
  | letters h => rwa [← Text.mem_upper_iff rfl, ← h, Text.mem_upper_iff rfl]

/-- No change in the spelling makes a segment begin with the header. -/
theorem areSegments_of_respellsOnce {inDeadlines : Prop}
    (h : RespellsOnce inDeadlines segments segments') (hsegments : AreSegments segments) :
    AreSegments segments' := by
  cases h with
  | order h => exact fun segment hsegment => hsegments segment (h.mem_iff.mpr hsegment)
  | @blank bs hbs before after =>
      have hblank : ';' ∉ bs ∧ ¬ Rule.header <+: upper (trim bs) := by
        refine ⟨Text.not_mem_of_allBlank hbs rfl, ?_⟩
        rw [Text.trim_eq_nil_iff.mpr hbs]
        decide
      simp only [AreSegments, List.forall_mem_append, List.forall_mem_cons] at hsegments ⊢
      exact ⟨hsegments.1, hblank, hsegments.2⟩
  | segment h before after =>
      simp only [AreSegments, List.forall_mem_append, List.forall_mem_cons] at hsegments ⊢
      obtain ⟨hbefore, ⟨hsemicolon, hheader⟩, hafter⟩ := hsegments
      exact ⟨hbefore, ⟨not_mem_of_respellsSegment h hsemicolon,
        fun hprefix => hheader (header_prefix_of_respellsSegment h hprefix)⟩, hafter⟩

/-- The order of entries does not matter, nor in which of its forms a value is. -/
theorem isWrittenAs_of_perm (h : d.IsWrittenAs entries)
    (hkeys : (Draft.entryKeys entries').Perm (Draft.entryKeys entries))
    (hgiven : ∀ entry ∈ entries', d.IsGivenBy entry.2 entry.1) : d.IsWrittenAs entries' where
  nodup := hkeys.nodup_iff.mpr h.nodup
  frequency_mem := hkeys.mem_iff.mpr h.frequency_mem
  endings := by
    rw [hkeys.mem_iff, hkeys.mem_iff]
    exact h.endings
  given := hgiven
  others := fun key hkey => h.others key fun hmem => hkey (hkeys.mem_iff.mpr hmem)

/-- Segments that tell the same show entries with the same keys. -/
theorem exists_entries_of_tells
    (h : List.Forall₂ (fun cs ds => ∀ key, d.Tells key cs → d.Tells key ds) segments segments')
    (hentries : List.Forall₂ (fun segment entry =>
      ShowsProperty entry.1.name.toList entry.2 segment) segments entries)
    (hgiven : ∀ entry ∈ entries, d.IsGivenBy entry.2 entry.1) :
    ∃ entries', List.Forall₂ (fun segment entry =>
        ShowsProperty entry.1.name.toList entry.2 segment) segments' entries' ∧
      Draft.entryKeys entries' = Draft.entryKeys entries ∧
      ∀ entry ∈ entries', d.IsGivenBy entry.2 entry.1 := by
  induction h generalizing entries with
  | nil =>
      cases hentries
      exact ⟨[], .nil, rfl, by simp⟩
  | cons htells _ ih =>
      cases hentries with
      | @cons _ entry _ rest hshows hrest =>
          obtain ⟨hhead, htail⟩ := List.forall_mem_cons.mp hgiven
          obtain ⟨value, hvalue, hgiven'⟩ := htells entry.1 ⟨entry.2, hshows, hhead⟩
          obtain ⟨rest', hrest', hkeys, hgivens⟩ := ih hrest htail
          refine ⟨(entry.1, value) :: rest', .cons hvalue hrest', ?_,
            List.forall_mem_cons.mpr ⟨hgiven', hgivens⟩⟩
          exact congrArg (entry.1 :: ·) hkeys

theorem isToldBy_of_tells
    (h : List.Forall₂ (fun cs ds => ∀ key, d.Tells key cs → d.Tells key ds)
      (shownSegments segments) (shownSegments segments'))
    (htold : d.IsToldBy segments) : d.IsToldBy segments' := by
  obtain ⟨entries, hentries, hwritten⟩ := htold
  obtain ⟨entries', hentries', hkeys, hgiven⟩ :=
    exists_entries_of_tells h hentries hwritten.given
  exact ⟨entries', hentries', isWrittenAs_of_perm hwritten (.of_eq hkeys) hgiven⟩

theorem isToldBy_of_perm (h : segments.Perm segments') (htold : d.IsToldBy segments) :
    d.IsToldBy segments' := by
  obtain ⟨entries, hentries, hwritten⟩ := htold
  have hshown : (shownSegments segments').Perm (shownSegments segments) :=
    ((h.map trim).filter _).symm
  obtain ⟨entries', hentries', hperm⟩ := List.perm_comp_forall₂ hshown hentries
  exact ⟨entries', hentries', isWrittenAs_of_perm hwritten (hperm.map Prod.fst)
    fun entry hentry => hwritten.given entry (hperm.mem_iff.mp hentry)⟩

theorem shownSegments_append (segments segments' : List (List Char)) :
    shownSegments (segments ++ segments') =
      shownSegments segments ++ shownSegments segments' := by
  rw [shownSegments, List.map_append, List.filter_append]
  rfl

theorem shownSegments_cons_of_allBlank (h : AllBlank cs) (segments : List (List Char)) :
    shownSegments (cs :: segments) = shownSegments segments := by
  rw [shownSegments, List.map_cons, Text.trim_eq_nil_iff.mpr h]
  rfl

theorem shownSegments_cons_of_not_allBlank (h : ¬ AllBlank cs) (segments : List (List Char)) :
    shownSegments (cs :: segments) = trim cs :: shownSegments segments := by
  rw [← Text.trim_eq_nil_iff] at h
  rw [shownSegments, List.map_cons, List.filter_cons_of_pos (by simpa using h)]
  rfl

/-- The segments around one that is spelled in another way tell what they told. -/
theorem forall₂_tells_shownSegments (hblank : AllBlank ds ↔ AllBlank cs)
    (htells : ∀ key, d.Tells key cs → d.Tells key ds) (before after : List (List Char)) :
    List.Forall₂ (fun cs ds => ∀ key, d.Tells key cs → d.Tells key ds)
      (shownSegments (before ++ cs :: after)) (shownSegments (before ++ ds :: after)) := by
  have hrefl (segments : List (List Char)) :
      List.Forall₂ (fun cs ds => ∀ key, d.Tells key cs → d.Tells key ds) segments segments :=
    List.forall₂_same.mpr fun _ _ _ h => h
  rw [shownSegments_append, shownSegments_append]
  apply List.rel_append (hrefl _)
  by_cases hcs : AllBlank cs
  · rw [shownSegments_cons_of_allBlank hcs, shownSegments_cons_of_allBlank (hblank.mpr hcs)]
    exact hrefl _
  · rw [shownSegments_cons_of_not_allBlank hcs,
      shownSegments_cons_of_not_allBlank (mt hblank.mp hcs)]
    refine .cons (fun key h => ?_) (hrefl _)
    rw [tells_trim_iff] at h ⊢
    exact htells key h

/-- One change in the spelling does not change what the segments tell. -/
theorem isToldBy_iff_of_respellsOnce (h : RespellsOnce False segments segments') :
    d.IsToldBy segments ↔ d.IsToldBy segments' := by
  cases h with
  | order h => exact ⟨isToldBy_of_perm h, isToldBy_of_perm h.symm⟩
  | blank hbs before after =>
      rw [Draft.IsToldBy, Draft.IsToldBy, shownSegments_append, shownSegments_append,
        shownSegments_cons_of_allBlank hbs]
  | segment h before after =>
      have hblank := allBlank_iff_of_respellsSegment h
      have htells (key : Key) : d.Tells key _ ↔ d.Tells key _ := tells_iff_of_respellsSegment h
      constructor
      · exact isToldBy_of_tells
          (forall₂_tells_shownSegments hblank (fun key => (htells key).mpr) before after)
      · exact isToldBy_of_tells
          (forall₂_tells_shownSegments hblank.symm (fun key => (htells key).mp) before after)

/-- Nor do many changes. -/
theorem isToldBy_iff_of_respells (h : Respells False segments segments') :
    d.IsToldBy segments ↔ d.IsToldBy segments' := by
  induction h with
  | refl => exact Iff.rfl
  | tail _ hstep ih => exact ih.trans (isToldBy_iff_of_respellsOnce hstep)

theorem areSegments_of_respells {inDeadlines : Prop} (h : Respells inDeadlines segments segments')
    (hsegments : AreSegments segments) : AreSegments segments' := by
  induction h with
  | refl => exact hsegments
  | tail _ hstep ih => exact areSegments_of_respellsOnce hstep ih

/-! ## Texts of a rule -/

/-- Segments that do not begin with the header make a text that does not. -/
theorem not_header_prefix_intercalate (h : AreSegments segments) :
    ¬ Rule.header <+: upper ([';'].intercalate segments) := by
  cases segments with
  | nil => decide
  | cons segment rest =>
      intro hprefix
      apply (h segment List.mem_cons_self).2
      apply Text.prefix_upper_trim_of_prefix isBlank_of_mem_header
      cases rest with
      | nil => rwa [List.intercalate_singleton] at hprefix
      | cons next rest =>
          rw [List.intercalate_cons_cons, List.append_assoc, Text.upper_append] at hprefix
          exact Text.prefix_of_prefix_append_cons (m := ';') (by decide) hprefix

theorem isBody_of_hasSegments (hsegments : AreSegments segments) (h : HasSegments cs segments) :
    IsBody cs ([';'].intercalate segments) := by
  obtain ⟨header, hheader, rfl⟩ := h
  rcases hheader with rfl | hheader
  · refine .inr ⟨rfl, fun front back hparts hfront => ?_⟩
    apply not_header_prefix_intercalate hsegments
    rw [List.nil_append] at hparts
    rw [hparts, Text.upper_append, hfront]
    exact List.prefix_append _ _
  · exact .inl ⟨header, hheader, rfl⟩

theorem segmentTexts_intercalate (h : AreSegments segments) :
    segmentTexts ([';'].intercalate segments) = shownSegments segments := by
  cases segments with
  | nil => rfl
  | cons segment rest =>
      rw [segmentTexts, List.splitOn_intercalate ';' (fun s hs => (h s hs).1)
        (List.cons_ne_nil _ _)]
      rfl

/-- A text whose segments tell something is not blank. -/
theorem not_allBlank_of_isToldBy (h : HasSegments cs segments) (htold : d.IsToldBy segments) :
    ¬ AllBlank cs := by
  intro hblank
  obtain ⟨header, -, rfl⟩ := h
  obtain ⟨entries, hentries, hwritten⟩ := htold
  have hnone : shownSegments segments = [] := by
    simp only [shownSegments, List.filter_eq_nil_iff, List.forall_mem_map]
    intro segment hsegment
    have hall : AllBlank segment := fun c hc =>
      hblank c (List.mem_append_right header (Text.mem_intercalate hsegment hc))
    simp [Text.trim_eq_nil_iff.mpr hall]
  rw [hnone, List.forall₂_nil_left_iff] at hentries
  have hfrequency := hwritten.frequency_mem
  simp [hentries, Draft.entryKeys] at hfrequency

/-- A text is read if and only if its segments tell what a rule has. -/
theorem parse_eq_ok_iff_isToldBy {text : String} (hsegments : AreSegments segments)
    (h : HasSegments text.toList segments) {r : Rule} :
    Rule.parse text = .ok r ↔ ∃ d : Draft, d.IsToldBy segments ∧ d.build = .ok r := by
  have hbody := isBody_iff.mp (isBody_of_hasSegments hsegments h)
  rw [Rule.parse_eq_ok_iff]
  simp only [HasEntries, isBody_iff, hbody, exists_eq_left', segmentTexts_intercalate hsegments]
  constructor
  · rintro ⟨entries, ⟨-, hentries⟩, d, hwritten, hbuild⟩
    exact ⟨d, ⟨entries, hentries, hwritten⟩, hbuild⟩
  · rintro ⟨d, ⟨entries, hentries, hwritten⟩, hbuild⟩
    have hblank := not_allBlank_of_isToldBy h ⟨entries, hentries, hwritten⟩
    exact ⟨entries, ⟨mt Text.trim_eq_nil_iff.mp hblank, hentries⟩, d, hwritten, hbuild⟩

end

namespace Rule

/-- All spellings of a rule's segments, none of which begins with the header, are read as the
same rule or are not read, with the header or without it.  Blanks may not be put next to an
equals sign in the value of a deadline. -/
theorem parse_eq_ok_iff_of_respells {s t : String} {segments segments' : List (List Char)}
    (hsegments : AreSegments segments) (hs : HasSegments s.toList segments)
    (ht : HasSegments t.toList segments') (h : Respells False segments segments') (r : Rule) :
    parse s = .ok r ↔ parse t = .ok r := by
  rw [parse_eq_ok_iff_isToldBy hsegments hs,
    parse_eq_ok_iff_isToldBy (areSegments_of_respells h hsegments) ht]
  simp only [isToldBy_iff_of_respells h]

theorem twoHours_respelled :
    AreSegments ["FREQ=DAILY".toList, "BYHOUR=9,17".toList] ∧
      HasSegments "RRULE:FREQ=DAILY;BYHOUR=9,17".toList
        ["FREQ=DAILY".toList, "BYHOUR=9,17".toList] ∧
      HasSegments "byhour=9, 17; ;FREQ=DAILY".toList
        ["byhour=9, 17".toList, [' '], "FREQ=DAILY".toList] ∧
      Respells False ["FREQ=DAILY".toList, "BYHOUR=9,17".toList]
        ["byhour=9, 17".toList, [' '], "FREQ=DAILY".toList] ∧
      (parse "RRULE:FREQ=DAILY;BYHOUR=9,17").isOk = true ∧
      ∀ r, parse "RRULE:FREQ=DAILY;BYHOUR=9,17" = .ok r ↔
        parse "byhour=9, 17; ;FREQ=DAILY" = .ok r := by
  have hsegments : AreSegments ["FREQ=DAILY".toList, "BYHOUR=9,17".toList] := by
    unfold AreSegments
    decide +kernel
  have hs : HasSegments "RRULE:FREQ=DAILY;BYHOUR=9,17".toList
      ["FREQ=DAILY".toList, "BYHOUR=9,17".toList] := ⟨header, .inr rfl, by decide +kernel⟩
  have ht : HasSegments "byhour=9, 17; ;FREQ=DAILY".toList
      ["byhour=9, 17".toList, [' '], "FREQ=DAILY".toList] := ⟨[], .inl rfl, by decide +kernel⟩
  have hspace : AllBlank [' '] := List.forall_mem_singleton.mpr (by decide)
  have hhours : ReachesValue .hours "BYHOUR=9".toList :=
    ⟨"BYHOUR".toList, ['9'], by decide +kernel, by decide +kernel, by decide +kernel⟩
  have hitems : RespellsSegment False "BYHOUR=9,17".toList "BYHOUR=9, 17".toList := by
    rw [show "BYHOUR=9,17".toList = "BYHOUR=9".toList ++ [','] ++ "17".toList by decide +kernel,
      show "BYHOUR=9, 17".toList = "BYHOUR=9".toList ++ [','] ++ ([' '] ++ "17".toList) by
        decide +kernel]
    exact .blanks (.afterComma (by trivial : Key.hours.HasList) hhours _) hspace
  have hletters : RespellsSegment False "BYHOUR=9, 17".toList "byhour=9, 17".toList :=
    .letters (by decide +kernel)
  have hrespells : Respells False ["FREQ=DAILY".toList, "BYHOUR=9,17".toList]
      ["byhour=9, 17".toList, [' '], "FREQ=DAILY".toList] := by
    refine .tail (.tail (.tail (.single (.order (.swap _ _ [])))
      (.segment hitems [] ["FREQ=DAILY".toList])) (.segment hletters [] ["FREQ=DAILY".toList])) ?_
    exact .blank hspace ["byhour=9, 17".toList] ["FREQ=DAILY".toList]
  exact ⟨hsegments, hs, ht, hrespells, by decide +kernel,
    parse_eq_ok_iff_of_respells hsegments hs ht hrespells⟩

/-- A deadline is read although three characters are passed over in it, but not with a blank
before the equals sign that is one of them. -/
theorem dividedDeadline_not_respelled :
    AreSegments ["FREQ=DAILY".toList, "UNTIL=20240101T09=é0".toList] ∧
      HasSegments "FREQ=DAILY;UNTIL=20240101T09=é0".toList
        ["FREQ=DAILY".toList, "UNTIL=20240101T09=é0".toList] ∧
      HasSegments "FREQ=DAILY;UNTIL=20240101T09 =é0".toList
        ["FREQ=DAILY".toList, "UNTIL=20240101T09 =é0".toList] ∧
      Respells True ["FREQ=DAILY".toList, "UNTIL=20240101T09=é0".toList]
        ["FREQ=DAILY".toList, "UNTIL=20240101T09 =é0".toList] ∧
      (parse "FREQ=DAILY;UNTIL=20240101T09=é0").isOk = true ∧
      (parse "FREQ=DAILY;UNTIL=20240101T09 =é0").isOk = false := by
  have hsegments : AreSegments ["FREQ=DAILY".toList, "UNTIL=20240101T09=é0".toList] := by
    unfold AreSegments
    decide +kernel
  have hspace : AllBlank [' '] := List.forall_mem_singleton.mpr (by decide)
  have hblank : RespellsSegment True "UNTIL=20240101T09=é0".toList
      "UNTIL=20240101T09 =é0".toList := by
    rw [show "UNTIL=20240101T09=é0".toList = "UNTIL=20240101T09".toList ++ '=' :: "é0".toList by
        decide +kernel,
      show "UNTIL=20240101T09 =é0".toList =
          "UNTIL=20240101T09".toList ++ ([' '] ++ '=' :: "é0".toList) by
        decide +kernel]
    exact .blanks (.beforeEquals (fun _ => trivial) _) hspace
  exact ⟨hsegments, ⟨[], .inl rfl, by decide +kernel⟩, ⟨[], .inl rfl, by decide +kernel⟩,
    .single (.segment hblank ["FREQ=DAILY".toList] []), by decide +kernel, by decide +kernel⟩

end Rule
end Timetable
