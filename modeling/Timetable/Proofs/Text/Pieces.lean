import Timetable.Proofs.Text.Spelling

/-!
# Where the pieces of a text lie

A text is cut at marks.  `IsCut` says what a part between marks is, with what stands in front
of it and what follows; the pieces of the text are these parts, and each begins at the byte
after what stands in front of it: `mem_splitWhere_iff`.  `IsWord` says the same of the longest
runs of characters that are not blank.

Pieces come from left to right and do not meet (`ascend_splitWhere`), and trimming a piece
leaves it inside of the range it had.  So all pieces of a kind are one list: `ListsAll`.
-/

namespace Timetable
namespace Text

variable {isMark : Char → Bool} {cs left part right : List Char} {start : Nat}

/-- Whether a part of a text lies between marks or the ends of the text. -/
structure IsCut (isMark : Char → Bool) (cs left part right : List Char) : Prop where
  chars_eq : cs = left ++ (part ++ right)
  part_isMark : ∀ c ∈ part, isMark c = false
  left_isMark : ∀ c ∈ left.getLast?, isMark c = true
  right_isMark : ∀ c ∈ right.head?, isMark c = true

/-- Whether a piece is one of the longest runs of characters that are not blank. -/
def IsWord (cs : List Char) (p : Piece) : Prop :=
  ∃ left right, IsCut isBlank cs left p.chars right ∧ p.chars ≠ [] ∧ p.start = byteLength left

/-- Whether a piece is what a text has at the byte where the piece begins. -/
def LiesIn (cs : List Char) (p : Piece) : Prop :=
  ∃ before after, cs = before ++ (p.chars ++ after) ∧ p.start = byteLength before

/-- Whether a list has all pieces of which something holds, from left to right. -/
structure ListsAll (P : Piece → Prop) (ps : List Piece) : Prop where
  mem_iff : ∀ p, p ∈ ps ↔ P p
  ascend : ps.Pairwise fun p q => p.span.stop < q.start

/-! ## Cutting at marks -/

/-- Induction along the parts of a text between marks. -/
@[elab_as_elim]
theorem cuts_induction {P : List Char → Prop} (isMark : Char → Bool) (cs : List Char)
    (last : ∀ part, (∀ c ∈ part, isMark c = false) → P part)
    (more : ∀ part mark rest, (∀ c ∈ part, isMark c = false) → isMark mark = true → P rest →
      P (part ++ mark :: rest)) : P cs := by
  induction hlength : cs.length using Nat.strongRecOn generalizing cs with
  | ind n ih =>
      cases hdivide : divideAt? isMark cs with
      | none => exact last cs (divideAt?_eq_none_iff.mp hdivide)
      | some parts =>
          obtain ⟨mark, hmark, hpart, rfl⟩ := divideAt?_eq_some_iff.mp hdivide
          rw [List.length_append, List.length_cons] at hlength
          exact more parts.1 mark parts.2 hpart hmark (ih parts.2.length (by omega) parts.2 rfl)

theorem splitWhere_of_forall (h : ∀ c ∈ part, isMark c = false) (start : Nat) :
    splitWhere isMark start part = [⟨start, part⟩] := by
  induction part generalizing start with
  | nil => rfl
  | cons c part ih =>
      obtain ⟨hc, hpart⟩ := List.forall_mem_cons.mp h
      rw [splitWhere, ih hpart, if_neg (by simp [hc])]

theorem splitWhere_append_cons {mark : Char} (h : ∀ c ∈ part, isMark c = false)
    (hmark : isMark mark = true) (start : Nat) (rest : List Char) :
    splitWhere isMark start (part ++ mark :: rest) =
      ⟨start, part⟩ :: splitWhere isMark (start + byteLength part + mark.utf8Size) rest := by
  induction part generalizing start with
  | nil => rw [List.nil_append, splitWhere, if_pos hmark, byteLength, Nat.add_zero]
  | cons c part ih =>
      obtain ⟨hc, hpart⟩ := List.forall_mem_cons.mp h
      rw [List.cons_append, splitWhere, ih hpart, if_neg (by simp [hc]), byteLength,
        Nat.add_assoc start]

/-- Without marks there is one part. -/
theorem isCut_iff_of_forall (h : ∀ c ∈ cs, isMark c = false) :
    IsCut isMark cs left part right ↔ left = [] ∧ part = cs ∧ right = [] := by
  constructor
  · intro hcut
    obtain ⟨rfl, -, hleft, hright⟩ := hcut
    have hnone : left = [] := by
      rw [← List.getLast?_eq_none_iff, Option.eq_none_iff_forall_ne_some]
      intro c hc
      have hmem := h c (List.mem_append_left _ (List.mem_of_getLast? hc))
      rw [hleft c hc] at hmem
      contradiction
    have hnone' : right = [] := by
      rw [← List.head?_eq_none_iff, Option.eq_none_iff_forall_ne_some]
      intro c hc
      have hmem := h c (List.mem_append_right _ (List.mem_append_right _ (List.mem_of_head? hc)))
      rw [hright c hc] at hmem
      contradiction
    simp [hnone, hnone']
  · rintro ⟨rfl, rfl, rfl⟩
    exact ⟨by simp, h, by simp, by simp⟩

/-- The part up to the first mark is the one in front of which there is nothing. -/
theorem isCut_nil_append_cons_iff {front rest : List Char} {mark : Char}
    (h : ∀ c ∈ front, isMark c = false) (hmark : isMark mark = true) :
    IsCut isMark (front ++ mark :: rest) [] part right ↔ part = front ∧ right = mark :: rest := by
  constructor
  · intro hcut
    have hdivide := divideAt?_append_cons hmark h rest
    cases right with
    | nil =>
        have hall := hcut.part_isMark mark
        rw [← List.append_nil part, ← List.nil_append (part ++ []), ← hcut.chars_eq, hmark] at hall
        simp at hall
    | cons mark' rest' =>
        have hmark' := hcut.right_isMark mark' rfl
        have hdivide' := divideAt?_append_cons hmark' hcut.part_isMark rest'
        have hchars : front ++ mark :: rest = part ++ mark' :: rest' := hcut.chars_eq
        rw [← hchars, hdivide] at hdivide'
        obtain ⟨rfl, -⟩ := Prod.mk.inj (Option.some.inj hdivide')
        exact ⟨rfl, (List.append_cancel_left hchars).symm⟩
  · rintro ⟨rfl, rfl⟩
    exact ⟨by simp, h, by simp, by simp [hmark]⟩

/-- The parts after the first mark are those of the rest. -/
theorem isCut_append_cons_iff {front rest : List Char} {mark : Char}
    (h : ∀ c ∈ front, isMark c = false) (hmark : isMark mark = true) :
    IsCut isMark (front ++ mark :: rest) left part right ↔
      left = [] ∧ part = front ∧ right = mark :: rest ∨
        ∃ left', left = front ++ mark :: left' ∧ IsCut isMark rest left' part right := by
  by_cases hleft : left = []
  · subst hleft
    rw [isCut_nil_append_cons_iff h hmark]
    simp
  have hlast (left' : List Char) (hleft' : left' ≠ []) :
      (front ++ mark :: left').getLast? = left'.getLast? := by
    rw [List.append_cons, List.getLast?_append, List.getLast?_eq_some_getLast hleft',
      Option.some_or]
  constructor
  · intro hcut
    right
    -- what stands in front of the part ends in a mark, so it reaches past the first one
    have hmem : ∃ c ∈ left, isMark c = true :=
      ⟨left.getLast hleft, List.getLast_mem hleft,
        hcut.left_isMark _ (List.getLast?_eq_some_getLast hleft)⟩
    obtain ⟨⟨front', left'⟩, hdivide⟩ : ∃ parts, divideAt? isMark left = some parts := by
      rw [← Option.isSome_iff_exists, Option.isSome_iff_ne_none, ne_eq, divideAt?_eq_none_iff]
      obtain ⟨c, hc, hmark'⟩ := hmem
      intro hall
      rw [hall c hc] at hmark'
      contradiction
    obtain ⟨mark', hmark', hfront', rfl⟩ := divideAt?_eq_some_iff.mp hdivide
    have hchars : front ++ mark :: rest = front' ++ mark' :: (left' ++ (part ++ right)) := by
      rw [hcut.chars_eq, List.append_assoc, List.cons_append]
    have hsame : some (front', left' ++ (part ++ right)) = some (front, rest) := by
      rw [← divideAt?_append_cons hmark h rest, hchars, divideAt?_append_cons hmark' hfront']
    obtain ⟨rfl, rfl⟩ := Prod.mk.inj (Option.some.inj hsame)
    obtain ⟨rfl, -⟩ := List.cons.inj (List.append_cancel_left hchars)
    refine ⟨left', rfl, rfl, hcut.part_isMark, ?_, hcut.right_isMark⟩
    by_cases hleft' : left' = []
    · simp [hleft']
    · have hends := hcut.left_isMark
      rwa [hlast left' hleft'] at hends
  · rintro (⟨hnone, -⟩ | ⟨left', rfl, hcut⟩)
    · exact absurd hnone hleft
    · refine ⟨by rw [hcut.chars_eq, List.append_assoc, List.cons_append], hcut.part_isMark, ?_,
        hcut.right_isMark⟩
      by_cases hleft' : left' = []
      · simp [hleft', hmark]
      · rw [hlast left' hleft']
        exact hcut.left_isMark

/-- The pieces of a text are its parts between marks, and each begins after what stands in
front of it. -/
theorem mem_splitWhere_iff {p : Piece} :
    p ∈ splitWhere isMark start cs ↔
      ∃ left right, IsCut isMark cs left p.chars right ∧ p.start = start + byteLength left := by
  induction cs using cuts_induction isMark generalizing start with
  | last part hpart =>
      rw [splitWhere_of_forall hpart, List.mem_singleton]
      simp only [isCut_iff_of_forall hpart]
      constructor
      · rintro rfl
        exact ⟨[], [], ⟨rfl, rfl, rfl⟩, rfl⟩
      · rintro ⟨left, right, ⟨rfl, hchars, -⟩, hstart⟩
        rw [← hchars, Piece.mk.injEq]
        exact ⟨hstart, rfl⟩
  | more part mark rest hpart hmark ih =>
      rw [splitWhere_append_cons hpart hmark, List.mem_cons, ih]
      simp only [isCut_append_cons_iff hpart hmark]
      constructor
      · rintro (rfl | ⟨left, right, hcut, hstart⟩)
        · exact ⟨[], _, .inl ⟨rfl, rfl, rfl⟩, rfl⟩
        · refine ⟨part ++ mark :: left, right, .inr ⟨left, rfl, hcut⟩, ?_⟩
          rw [hstart, byteLength_append, byteLength]
          omega
      · rintro ⟨left, right, ⟨rfl, hchars, -⟩ | ⟨left', rfl, hcut⟩, hstart⟩
        · left
          rw [← hchars, Piece.mk.injEq]
          exact ⟨hstart, rfl⟩
        · refine .inr ⟨left', right, hcut, ?_⟩
          rw [hstart, byteLength_append, byteLength]
          omega

theorem IsWord.liesIn {p : Piece} (h : IsWord cs p) : LiesIn cs p := by
  obtain ⟨left, right, hcut, -, hstart⟩ := h
  exact ⟨left, right, hcut.chars_eq, hstart⟩

theorem liesIn_self (cs : List Char) : LiesIn cs ⟨0, cs⟩ :=
  ⟨[], [], by simp, rfl⟩

/-! ## Order -/

theorem start_le_of_mem_splitWhere {p : Piece} (h : p ∈ splitWhere isMark start cs) :
    start ≤ p.start := by
  obtain ⟨left, right, -, hstart⟩ := mem_splitWhere_iff.mp h
  omega

/-- Between two pieces there is at least a mark. -/
theorem ascend_splitWhere (isMark : Char → Bool) (start : Nat) (cs : List Char) :
    (splitWhere isMark start cs).Pairwise fun p q => p.span.stop < q.start := by
  induction cs using cuts_induction isMark generalizing start with
  | last part hpart =>
      rw [splitWhere_of_forall hpart]
      exact List.pairwise_singleton _ _
  | more part mark rest hpart hmark ih =>
      rw [splitWhere_append_cons hpart hmark, List.pairwise_cons]
      refine ⟨fun p hp => ?_, ih _⟩
      have hle := start_le_of_mem_splitWhere hp
      have hpos := mark.utf8Size_pos
      show start + byteLength part < p.start
      omega

/-- The words of a text are its longest runs of characters that are not blank. -/
theorem listsAll_words (cs : List Char) : ListsAll (IsWord cs) (words cs) where
  mem_iff p := by
    simp only [words, List.mem_filter, mem_splitWhere_iff, IsWord, Nat.zero_add,
      Bool.not_eq_true', List.isEmpty_eq_false_iff]
    constructor
    · rintro ⟨⟨left, right, hcut, hstart⟩, hne⟩
      exact ⟨left, right, hcut, hne, hstart⟩
    · rintro ⟨left, right, hcut, hne, hstart⟩
      exact ⟨⟨left, right, hcut, hstart⟩, hne⟩
  ascend := (ascend_splitWhere isBlank 0 cs).filter _

end Text

/-- A piece is its trimmed piece with the blanks around it. -/
theorem Piece.exists_chars_eq_trim (p : Piece) :
    ∃ bs, p.chars = p.chars.takeWhile Text.isBlank ++ (p.trim.chars ++ bs) := by
  obtain ⟨bs, -, hleft⟩ := Text.exists_trimLeft_eq_trim_append p.chars
  refine ⟨bs, ?_⟩
  show p.chars = _ ++ (Text.trim p.chars ++ bs)
  rw [← hleft]
  exact List.takeWhile_append_dropWhile.symm

/-- A trimmed piece lies inside of the piece. -/
theorem Piece.span_trim (p : Piece) :
    p.start ≤ p.trim.start ∧ p.trim.span.stop ≤ p.span.stop := by
  obtain ⟨bs, hchars⟩ := p.exists_chars_eq_trim
  have hlength := congrArg Text.byteLength hchars
  rw [Text.byteLength_append, Text.byteLength_append] at hlength
  have hstart : p.trim.start = p.start + Text.byteLength (p.chars.takeWhile Text.isBlank) := rfl
  simp only [Piece.span]
  omega

end Timetable
