import Timetable.Proofs.Civil.Bytewise
import Timetable.Proofs.Rule.Faults

/-!
# Reading rules by the positions of bytes

A rule can be read without looking at characters one by one: semicolons are found among the
bytes of the text, and segments, the body after the header and the two letters of a weekday are
cut out between bytes.  `Rule.parseByBytes` reads a rule in this way.

None of the cuts fails, whatever the text is, and the answer is that of `Rule.parse`:
`Rule.parseByBytes_eq`.  The loop over the segments, `tokenizeFrom`, stands between two
characters at every turn, behind a semicolon or at the beginning.
-/

namespace Timetable

open Text (trim trimLeft upper byteLength bytes isAscii slice? signed? items)
open Bytewise (answer cut cut_eq)
open Civil (DateTime)

/-! ## Segments -/

namespace Property

variable {start : Nat} {part rest : List Char}

theorem pieces_of_not_mem (h : ';' ∉ part) (start : Nat) :
    pieces start part = if (trim part).isEmpty then [] else [(⟨start, part⟩ : Piece).trim] := by
  have hsplit : Text.segments start part = [⟨start, part⟩] :=
    Text.splitWhere_of_forall (Text.forall_beq_eq_false_iff.mpr h) start
  rw [pieces, hsplit, List.map_singleton, List.filter_singleton, Piece.trim]
  cases (trim part).isEmpty <;> rfl

theorem pieces_append_cons (h : ';' ∉ part) (start : Nat) (rest : List Char) :
    pieces start (part ++ ';' :: rest) =
      pieces start part ++ pieces (start + byteLength part + 1) rest := by
  have hsplit : Text.segments start (part ++ ';' :: rest) =
      ⟨start, part⟩ :: Text.segments (start + byteLength part + 1) rest :=
    Text.splitWhere_append_cons (Text.forall_beq_eq_false_iff.mpr h) (beq_self_eq_true ';') start
      rest
  rw [pieces, hsplit, List.map_cons, ← List.singleton_append, List.filter_append,
    pieces_of_not_mem h, List.filter_singleton]
  cases hempty : (trim part).isEmpty <;> simp [Piece.trim, hempty, pieces]

end Property

namespace Bytewise

/-- The bytes of a text from one on. -/
def bytesFrom? (start : Nat) (cs : List Char) : Option (List UInt8) :=
  if start ≤ (bytes cs).length then some ((bytes cs).drop start) else none

/-- The byte at which a segment ends: that of the next semicolon, or the end of the text. -/
def segmentEnd (cs : List Char) (start : Nat) (tail : List UInt8) : Nat :=
  match tail.findIdx? (· == 59) with
  | some i => start + i
  | none => (bytes cs).length

theorem le_segmentEnd {cs : List Char} {start : Nat} (h : start < (bytes cs).length)
    (tail : List UInt8) : start ≤ segmentEnd cs start tail := by
  unfold segmentEnd
  split <;> omega

/-- Read the properties of a text from a byte on. -/
def tokenizeFrom (cs : List Char) (start : Nat) :
    Bytewise (Located Rule.Fault) (List Property) :=
  if h : start < (bytes cs).length then do
    let tail ← ExceptT.lift (bytesFrom? start cs)
    let stop := segmentEnd cs start tail
    let raw ← cut start stop cs
    let trimmed := trim raw
    if trimmed.isEmpty then
      tokenizeFrom cs (stop + 1)
    else
      let lead := byteLength raw - byteLength (trimLeft raw)
      let p ← answer (Property.ofPiece ⟨start + lead, trimmed⟩)
      let ps ← tokenizeFrom cs (stop + 1)
      return p :: ps
  else
    return []
termination_by (bytes cs).length - start
decreasing_by
  all_goals
    have hle := le_segmentEnd h tail
    omega

/-- Read the properties of a text. -/
def tokenize (cs : List Char) : Bytewise (Located Rule.Fault) (List Property) :=
  tokenizeFrom cs 0

variable {cs before part rest after : List Char} {start stop : Nat}

/-- A segment without semicolons ends before the next one, or at the end of the text. -/
theorem segmentEnd_append (h : ';' ∉ part) (hafter : ∀ c ∈ after.head?, c = ';') :
    segmentEnd (before ++ (part ++ after)) (byteLength before) (bytes (part ++ after)) =
      byteLength before + byteLength part := by
  have hascii : ';'.toNat < 128 := by decide
  unfold segmentEnd
  cases after with
  | nil =>
      rw [List.append_nil, show (bytes part).findIdx? (· == 59) = none from
        Text.findIdx?_bytes_eq_none hascii h]
      rw [Text.length_bytes, Text.byteLength_append]
  | cons c rest =>
      obtain rfl := hafter c rfl
      rw [show (bytes (part ++ ';' :: rest)).findIdx? (· == 59) = some (byteLength part) from
        Text.findIdx?_bytes_append_cons hascii h]

/-- The blanks in front of a segment take up the bytes by which trimming them shortens it. -/
theorem byteLength_sub_trimLeft (cs : List Char) :
    byteLength cs - byteLength (trimLeft cs) = byteLength (cs.takeWhile Text.isBlank) := by
  have hparts : cs.takeWhile Text.isBlank ++ trimLeft cs = cs :=
    List.takeWhile_append_dropWhile
  have hlength := congrArg byteLength hparts
  rw [Text.byteLength_append] at hlength
  omega

/-- One turn of the loop reads the segment behind what was read before. -/
theorem tokenizeFrom_append (before : List Char) (h : ';' ∉ part)
    (hafter : ∀ c ∈ after.head?, c = ';') (hne : part ++ after ≠ []) :
    tokenizeFrom (before ++ (part ++ after)) (byteLength before) = do
      let ps ← answer ((Property.pieces (byteLength before) part).mapM Property.ofPiece)
      let rest ← tokenizeFrom (before ++ (part ++ after)) (byteLength before + byteLength part + 1)
      return ps ++ rest := by
  have hlt : byteLength before < (bytes (before ++ (part ++ after))).length := by
    have hpos := Text.length_le_byteLength (part ++ after)
    have hlength := List.length_pos_of_ne_nil hne
    rw [Text.length_bytes, Text.byteLength_append]
    omega
  have htail : bytesFrom? (byteLength before) (before ++ (part ++ after)) =
      some (bytes (part ++ after)) := by
    rw [bytesFrom?, if_pos hlt.le, Text.bytes_append, ← Text.length_bytes, List.drop_left]
  rw [tokenizeFrom, dif_pos hlt, htail, lift_some, pure_bind, segmentEnd_append h hafter]
  dsimp only
  rw [cut_eq (Text.slice?_append before part after), pure_bind, byteLength_sub_trimLeft,
    Property.pieces_of_not_mem h]
  cases (trim part).isEmpty with
  | true =>
      show _ = (tokenizeFrom _ _ >>= fun rest => pure rest)
      rw [bind_pure]
      rfl
  | false =>
      rw [if_neg Bool.false_ne_true, if_neg Bool.false_ne_true, List.mapM_cons, List.mapM_nil]
      simp only [pure_bind, Piece.trim]
      cases Property.ofPiece ⟨byteLength before + byteLength (part.takeWhile Text.isBlank),
        trim part⟩ <;> rfl

/-- From behind a semicolon on, or from the beginning, all properties are read. -/
theorem tokenizeFrom_eq (before rest : List Char) :
    tokenizeFrom (before ++ rest) (byteLength before) =
      answer (Property.readAll (byteLength before) rest) := by
  induction rest using Text.cuts_induction (· == ';') generalizing before with
  | last part hpart =>
      have hnot := Text.forall_beq_eq_false_iff.mp hpart
      -- From the end of the text on nothing is read; an empty last part begins there.
      have hend (start : Nat) (hle : (bytes (before ++ part)).length ≤ start) :
          tokenizeFrom (before ++ part) start = pure [] := by
        rw [tokenizeFrom, dif_neg (by omega)]
      by_cases hne : part = []
      · subst hne
        rw [hend _ (by simp [Text.length_bytes])]
        rfl
      · have hlast : ∀ c ∈ ([] : List Char).head?, c = ';' := by simp
        have hstep := tokenizeFrom_append before hnot hlast (by simpa using hne)
        rw [List.append_nil] at hstep
        rw [hstep, hend _ (by rw [Text.length_bytes, Text.byteLength_append]; omega),
          Property.readAll]
        cases (Property.pieces (byteLength before) part).mapM Property.ofPiece with
        | error fault => rfl
        | ok ps =>
            show answer (.ok (ps ++ [])) = _
            rw [List.append_nil]
  | more part mark rest hpart hmark ih =>
      obtain rfl := beq_iff_eq.mp hmark
      have hnot := Text.forall_beq_eq_false_iff.mp hpart
      -- The rest is read from behind the semicolon, in the same text.
      have hrest := ih (before ++ (part ++ [';']))
      have hchars : before ++ (part ++ [';']) ++ rest = before ++ (part ++ ';' :: rest) := by
        simp
      have hbytes : byteLength (before ++ (part ++ [';'])) =
          byteLength before + byteLength part + 1 := by
        rw [Text.byteLength_append, Text.byteLength_append, ← Nat.add_assoc]
        rfl
      rw [hchars, hbytes] at hrest
      rw [tokenizeFrom_append before hnot (by simp) (by simp), hrest, Property.readAll,
        Property.readAll, Property.pieces_append_cons hnot, List.mapM_append, answer_bind]
      simp only [answer_bind]
      rfl

theorem tokenize_eq (cs : List Char) : tokenize cs = answer (Property.readAll 0 cs) :=
  tokenizeFrom_eq [] cs

end Bytewise

/-! ## Positions after the header -/

/-- Move what was found to the right. -/
def Located.shift {α : Type} (found : Located α) (bytes : Nat) : Located α :=
  ⟨found.value, found.span.shift bytes⟩

/-- Move a piece to the right. -/
def Piece.shift (p : Piece) (bytes : Nat) : Piece :=
  ⟨p.start + bytes, p.chars⟩

theorem Text.splitWhere_shift (isMark : Char → Bool) (start k : Nat) (cs : List Char) :
    splitWhere isMark (start + k) cs = (splitWhere isMark start cs).map (·.shift k) := by
  induction cs using cuts_induction isMark generalizing start with
  | last part hpart => rw [splitWhere_of_forall hpart, splitWhere_of_forall hpart]; rfl
  | more part mark rest hpart hmark ih =>
      have hstart : start + k + byteLength part + mark.utf8Size =
          start + byteLength part + mark.utf8Size + k := by omega
      rw [splitWhere_append_cons hpart hmark, splitWhere_append_cons hpart hmark, hstart, ih]
      rfl

namespace Property

/-- Move a property to the right. -/
def shift (p : Property) (bytes : Nat) : Property :=
  { p with span := p.span.shift bytes }

theorem pieces_shift (start k : Nat) (cs : List Char) :
    pieces (start + k) cs = (pieces start cs).map (·.shift k) := by
  have htrim (p : Piece) : (p.shift k).trim = p.trim.shift k := by
    simp only [Piece.shift, Piece.trim, Piece.mk.injEq, and_true]
    omega
  have hmap (ps : List Piece) :
      (ps.map (·.shift k)).map Piece.trim = (ps.map Piece.trim).map (·.shift k) := by
    rw [List.map_map, List.map_map]
    exact List.map_congr_left fun p _ => htrim p
  rw [pieces, pieces, Text.segments, Text.splitWhere_shift, hmap, List.filter_map]
  rfl

theorem ofPiece_shift (p : Piece) (k : Nat) :
    ofPiece (p.shift k) = ((ofPiece p).map (·.shift k)).mapError (·.shift k) := by
  have hspan : (p.shift k).span = p.span.shift k := by
    simp only [Piece.shift, Piece.span, Span.shift, Span.mk.injEq, true_and]
    omega
  have hchars : (p.shift k).chars = p.chars := rfl
  rw [ofPiece, ofPiece, hspan, hchars]
  split
  next => rfl
  next =>
    dsimp only
    split
    next => rfl
    next => split <;> rfl

/-- Where a text begins does not change what is read from it. -/
theorem readAll_shift (start k : Nat) (cs : List Char) :
    readAll (start + k) cs =
      ((readAll start cs).map fun ps => ps.map (·.shift k)).mapError (·.shift k) := by
  rw [readAll, readAll, pieces_shift]
  generalize pieces start cs = ps
  induction ps with
  | nil => rfl
  | cons p ps ih =>
      rw [List.map_cons, List.mapM_cons, List.mapM_cons, ofPiece_shift, ih]
      cases ofPiece p with
      | error fault => rfl
      | ok property => cases ps.mapM ofPiece <;> rfl

end Property

/-! ## Weekdays -/

namespace WeekdaySelector

variable {frequency : Frequency} {item : List Char}

/-- Read a weekday from an ordinal, which may be empty, and a name. -/
def ofParts (frequency : Frequency) (item ordinal day : List Char) :
    Except Rule.Fault WeekdaySelector := do
  let weekday ← Key.weekdays.readWeekday day
  if ordinal.isEmpty then
    return ⟨weekday, none⟩
  else
    match signed? 32 ordinal with
    | none => .error (.invalidValue Key.weekdays.name (String.ofList item))
    | some n =>
        if !ValueRange.ordinal.contains n then
          .error (.outOfRange .ordinal n)
        else if !frequency.allowsOrdinals then
          .error (.ordinalNotAllowed frequency)
        else
          return ⟨weekday, some n⟩

/-- Read a weekday whose name is the last two bytes of an item. -/
def readByBytes (frequency : Frequency) (item : List Char) :
    Bytewise Rule.Fault WeekdaySelector :=
  if byteLength item < 2 || !isAscii item then
    answer (.error (.invalidValue Key.weekdays.name (String.ofList item)))
  else do
    let middle := byteLength item - 2
    let ordinal ← cut 0 middle item
    let day ← cut middle (byteLength item) item
    answer (ofParts frequency item ordinal day)

/-- Read a list of weekdays. -/
def readListByBytes (frequency : Frequency) (cs : List Char) :
    Bytewise Rule.Fault (List WeekdaySelector) :=
  (items cs).mapM fun item => readByBytes frequency (trim item)

theorem read_eq_ofParts (hlength : 2 ≤ item.length) (hascii : isAscii item = true) :
    read frequency item = ofParts frequency item (item.take (item.length - 2))
      (item.drop (item.length - 2)) := by
  have hguard : (item.length < 2 || !isAscii item) = false := by
    rw [hascii, Bool.not_true, Bool.or_false, decide_eq_false_iff_not]
    omega
  rw [read, hguard]
  rfl

/-- An item that holds more than ASCII is refused before it is cut. -/
theorem readByBytes_eq (frequency : Frequency) (item : List Char) :
    readByBytes frequency item = answer (read frequency item) := by
  by_cases hascii : isAscii item = true
  · have hbytes := Text.byteLength_of_isAscii hascii
    unfold readByBytes
    rw [hbytes]
    by_cases hlength : item.length < 2
    · have hguard : (item.length < 2 || !isAscii item) = true := by simp [hlength]
      rw [if_pos hguard, read, if_pos hguard]
    · have hguard : ¬ (item.length < 2 || !isAscii item) = true := by simp [hlength, hascii]
      have hday : (item.drop (item.length - 2)).take (item.length - (item.length - 2)) =
          item.drop (item.length - 2) := by
        rw [List.take_of_length_le]
        rw [List.length_drop]
      rw [if_neg hguard, read_eq_ofParts (by omega) hascii]
      dsimp only
      rw [cut_eq (Text.slice?_of_isAscii hascii (Nat.zero_le _) (by omega)),
        cut_eq (Text.slice?_of_isAscii hascii (by omega) (le_refl _)), hday, List.drop_zero,
        Nat.sub_zero]
      rfl
  · have hguard (n : Nat) : (n < 2 || !isAscii item) = true := by simp [hascii]
    rw [readByBytes, if_pos (hguard _), read, if_pos (hguard _)]

theorem readListByBytes_eq (frequency : Frequency) (cs : List Char) :
    readListByBytes frequency cs = answer (readList frequency cs) :=
  Bytewise.mapM_eq_answer (fun item => readByBytes_eq frequency (trim item)) (items cs)

end WeekdaySelector

/-! ## Properties -/

namespace Draft

/-- Enter the value of a property into a draft. -/
def enterByBytes (d : Draft) (key : Key) (value : List Char) : Bytewise Rule.Fault Draft :=
  match key with
  | .deadline => do
      match ← ExceptT.lift (DateTime.ofStamp?ByBytes value) with
      | none => answer (.error (.invalidTimestamp (String.ofList value)))
      | some t => return d.withDeadline t
  | .weekdays => do
      let weekdays ← WeekdaySelector.readListByBytes d.frequency value
      return { d with weekdays }
  | key => answer (d.enter key value)

/-- Enter a property into a draft. -/
def enterPropertyByBytes (d : Draft) (p : Property) : Bytewise (Located Rule.Fault) Draft :=
  let entered : Bytewise Rule.Fault Draft := match Key.ofName? p.name with
    | none => answer (.error (.unknownProperty (String.ofList p.name)))
    | some key => d.enterByBytes key p.value
  entered.adapt fun fault => ⟨fault, p.span⟩

theorem enterByBytes_eq (d : Draft) (key : Key) (value : List Char) :
    d.enterByBytes key value = answer (d.enter key value) := by
  cases key with
  | deadline =>
      rw [enterByBytes, enter, DateTime.ofStamp?ByBytes_eq, Bytewise.lift_some, pure_bind]
      cases DateTime.ofStamp? value <;> rfl
  | weekdays =>
      rw [enterByBytes, enter, WeekdaySelector.readListByBytes_eq]
      cases WeekdaySelector.readList d.frequency value <;> rfl
  | _ => rfl

theorem enterPropertyByBytes_eq (d : Draft) (p : Property) :
    d.enterPropertyByBytes p = answer (d.enterProperty p) := by
  rw [enterPropertyByBytes, enterProperty, ← Bytewise.adapt_answer]
  cases Key.ofName? p.name with
  | none => rfl
  | some key => simp only [enterByBytes_eq]

end Draft

namespace Rule

/-- Make a rule of the properties of a text; `whole` is the range of the text. -/
def ofPropertiesByBytes (whole : Span) (ps : List Property) :
    Bytewise (Located Rule.Fault) Rule := do
  if let some p := Property.findRepeated? [] ps then
    throw ⟨.duplicateProperty (String.ofList p.name), p.span⟩
  let frequency ← answer (Property.readFrequency whole ps)
  let draft ← ps.foldlM Draft.enterPropertyByBytes (Draft.ofFrequency frequency)
  if let some p := Property.secondEnding? ps then
    throw ⟨.twoEndings, p.span⟩
  answer (draft.build.mapError fun fault => ⟨fault, whole⟩)

theorem ofPropertiesByBytes_eq (whole : Span) (ps : List Property) :
    ofPropertiesByBytes whole ps = answer (ofProperties whole ps) := by
  have hfold := Bytewise.foldlM_eq_answer Draft.enterPropertyByBytes_eq ps
  unfold ofPropertiesByBytes ofProperties
  cases Property.findRepeated? [] ps with
  | some p => rfl
  | none =>
      simp only [hfold, Bytewise.answer_bind]
      cases Property.secondEnding? ps <;> rfl

/-! ## The header -/

/-- The byte at which a rule begins: behind the header, if the first bytes of the text are one. -/
def bodyStart (cs : List Char) : Nat :=
  match (slice? 0 (byteLength header) cs).filter fun front => upper front = header with
  | some front => byteLength front
  | none => 0

theorem bodyStart_eq (cs : List Char) : bodyStart cs = (body cs).1 := by
  have hcut (front back : List Char) (h : upper front = header) :
      slice? 0 (byteLength header) (front ++ back) = some front := by
    rw [← h, Text.byteLength_upper]
    simpa [byteLength] using Text.slice?_append [] front back
  by_cases hfront : upper (cs.take header.length) = header
  · have hfound := hcut _ (cs.drop header.length) hfront
    rw [List.take_append_drop] at hfound
    rw [bodyStart, body, if_pos hfront, hfound, Option.filter_some, if_pos (by simp [hfront])]
    show byteLength (cs.take header.length) = header.length
    rw [← Text.byteLength_upper, hfront]
    rfl
  · rw [bodyStart, body, if_neg hfront]
    cases hfound : slice? 0 (byteLength header) cs with
    | none => rfl
    | some front =>
        obtain ⟨before, after, hchars, hstart, -⟩ := Text.slice?_eq_some_iff.mp hfound
        -- The cut begins at byte 0, so no character stands before it.
        have hbefore : before = [] := by
          have hle := Text.length_le_byteLength before
          exact List.eq_nil_of_length_eq_zero (by omega)
        have hne : upper front ≠ header := by
          intro h
          rw [hchars, hbefore, List.nil_append, ← h, Text.length_upper, List.take_left] at hfront
          exact hfront (h.trans h.symm)
        rw [Option.filter_some, if_neg (by simpa using hne)]

/-- Read a rule from a text that is not blank. -/
def readByBytes (cs : List Char) : Bytewise (Located Rule.Fault) Rule := do
  let start := bodyStart cs
  let body ← cut start (byteLength cs) cs
  let ps ← (Bytewise.tokenize body).adapt (·.shift start)
  ofPropertiesByBytes ⟨0, byteLength cs⟩ (ps.map (·.shift start))

/-- Read a rule. -/
def parseByBytes (text : String) : Bytewise Diagnostic Rule :=
  let cs := text.toList
  if (trim cs).isEmpty then
    answer (.error (.argument "rule text is empty"))
  else
    (readByBytes cs).adapt fun fault => .rule fault.value.message ⟨fault.span, text⟩

theorem readByBytes_eq (cs : List Char) : readByBytes cs = answer (read cs) := by
  obtain ⟨head, hcs, hstart⟩ := exists_eq_append_body cs
  have hbody : slice? (body cs).1 (byteLength cs) cs = some (body cs).2 := by
    rw [Text.slice?_eq_some_iff]
    refine ⟨head, [], ?_, hstart.symm, ?_⟩
    · rw [List.append_nil]
      exact hcs
    · rw [← Text.byteLength_append, ← hcs]
  have htokens := Property.readAll_shift 0 (body cs).1 (body cs).2
  rw [Nat.zero_add] at htokens
  rw [readByBytes, bodyStart_eq, cut_eq hbody, pure_bind, Bytewise.tokenize_eq,
    Bytewise.adapt_answer]
  simp only [ofPropertiesByBytes_eq]
  have hread : read cs = (Property.readAll (body cs).1 (body cs).2 >>= fun ps =>
      ofProperties ⟨0, byteLength cs⟩ ps) := rfl
  rw [hread, htokens]
  cases Property.readAll 0 (body cs).2 <;> rfl

/-- A rule is read by bytes as it is by characters. -/
theorem parseByBytes_eq (text : String) : parseByBytes text = answer (parse text) := by
  unfold parseByBytes parse
  dsimp only
  split
  next => rfl
  next => rw [readByBytes_eq, Bytewise.adapt_answer]

end Rule
end Timetable
