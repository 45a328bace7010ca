import Timetable.Proofs.Text.Pieces

/-!
# Cutting a text by the positions of bytes

A position in a text is a number of bytes.  `slice?` gives the part between two positions, and
nothing if one of them is past the end or inside of a character.  `slice?_eq_some_iff` says that
the cuts that succeed are those between two characters.

A byte of ASCII is never part of a longer character (`toNat_eq_of_mem_utf8EncodeChar`).  So a
search for it among the bytes of a text ends at such a character, and at the first one:
`findIdx?_bytes_append_cons`.

A `Bytewise` reader cuts texts at bytes, and gives nothing at all where it cannot.  What is said of
such a reader is that it gives what another reader gives, without fail: `Bytewise.answer`.
-/

namespace Timetable
namespace Text

variable {cs part rest : List Char} {c mark : Char} {b : UInt8}

/-! ## Cuts between two characters -/

theorem dropBytes?_append (cs ds : List Char) :
    dropBytes? (byteLength cs) (cs ++ ds) = some ds := by
  induction cs with
  | nil => exact dropBytes?.eq_1 ds
  | cons c cs ih =>
      obtain ⟨n, hn⟩ := Nat.exists_eq_add_one.mpr (Nat.add_pos_left c.utf8Size_pos (byteLength cs))
      have hrest : n + 1 - c.utf8Size = byteLength cs := by omega
      rw [byteLength, List.cons_append, hn, dropBytes?, if_pos (by omega), hrest, ih]

theorem takeBytes?_append (cs ds : List Char) :
    takeBytes? (byteLength cs) (cs ++ ds) = some cs := by
  induction cs with
  | nil => exact takeBytes?.eq_1 ds
  | cons c cs ih =>
      obtain ⟨n, hn⟩ := Nat.exists_eq_add_one.mpr (Nat.add_pos_left c.utf8Size_pos (byteLength cs))
      have hrest : n + 1 - c.utf8Size = byteLength cs := by omega
      rw [byteLength, List.cons_append, hn, takeBytes?, if_pos (by omega), hrest, ih,
        Option.map_some]

theorem exists_append_of_dropBytes? {n : Nat} (h : dropBytes? n cs = some rest) :
    ∃ front, cs = front ++ rest ∧ byteLength front = n := by
  induction n, cs using dropBytes?.induct with
  | case1 cs =>
      rw [dropBytes?] at h
      exact ⟨[], Option.some.inj h, rfl⟩
  | case2 n => simp [dropBytes?] at h
  | case3 n c cs hle ih =>
      rw [dropBytes?, if_pos hle] at h
      obtain ⟨front, rfl, hfront⟩ := ih h
      refine ⟨c :: front, rfl, ?_⟩
      rw [byteLength, hfront]
      omega
  | case4 n c cs hlt =>
      rw [dropBytes?, if_neg hlt] at h
      simp at h

theorem exists_append_of_takeBytes? {n : Nat} (h : takeBytes? n cs = some part) :
    ∃ rest, cs = part ++ rest ∧ byteLength part = n := by
  induction n, cs using takeBytes?.induct generalizing part with
  | case1 cs =>
      rw [takeBytes?] at h
      obtain rfl := Option.some.inj h
      exact ⟨cs, rfl, rfl⟩
  | case2 n => simp [takeBytes?] at h
  | case3 n c cs hle ih =>
      rw [takeBytes?, if_pos hle] at h
      obtain ⟨front, hfront, rfl⟩ := Option.map_eq_some_iff.mp h
      obtain ⟨rest, rfl, hlength⟩ := ih hfront
      refine ⟨rest, rfl, ?_⟩
      rw [byteLength, hlength]
      omega
  | case4 n c cs hlt =>
      rw [takeBytes?, if_neg hlt] at h
      simp at h

/-- A part of a text lies between the bytes where it begins and ends. -/
theorem slice?_append (before part after : List Char) :
    slice? (byteLength before) (byteLength before + byteLength part)
      (before ++ (part ++ after)) = some part := by
  rw [slice?, if_pos (Nat.le_add_right _ _), dropBytes?_append, Option.bind_some,
    Nat.add_sub_cancel_left, takeBytes?_append]

/-- A cut succeeds exactly if it lies in the text and between two characters at both ends. -/
theorem slice?_eq_some_iff {i j : Nat} :
    slice? i j cs = some part ↔ ∃ before after, cs = before ++ (part ++ after) ∧
      i = byteLength before ∧ j = byteLength before + byteLength part := by
  constructor
  · intro h
    rw [slice?, Option.ite_none_right_eq_some, Option.bind_eq_some_iff] at h
    obtain ⟨hle, rest, hdrop, htake⟩ := h
    obtain ⟨before, rfl, hbefore⟩ := exists_append_of_dropBytes? hdrop
    obtain ⟨after, rfl, hpart⟩ := exists_append_of_takeBytes? htake
    exact ⟨before, after, rfl, by omega, by omega⟩
  · rintro ⟨before, after, rfl, rfl, rfl⟩
    exact slice?_append before part after

theorem slice?_of_liesIn {p : Piece} (h : LiesIn cs p) :
    slice? p.span.start p.span.stop cs = some p.chars := by
  obtain ⟨before, after, rfl, hstart⟩ := h
  rw [Piece.span, hstart]
  exact slice?_append before p.chars after

/-! ## Bytes and characters -/

theorem length_le_byteLength (cs : List Char) : cs.length ≤ byteLength cs := by
  induction cs with
  | nil => exact Nat.le_refl 0
  | cons c cs ih =>
      have hpos := c.utf8Size_pos
      rw [List.length_cons, byteLength]
      omega

/-- A text has as many bytes as characters if each of them is a single byte. -/
theorem byteLength_eq_length_iff :
    byteLength cs = cs.length ↔ ∀ c ∈ cs, c.utf8Size = 1 := by
  induction cs with
  | nil => simp [byteLength]
  | cons c cs ih =>
      have hpos := c.utf8Size_pos
      have hle := length_le_byteLength cs
      rw [List.forall_mem_cons, ← ih, List.length_cons, byteLength]
      omega

theorem byteLength_of_isAscii (h : isAscii cs = true) : byteLength cs = cs.length := by
  rw [byteLength_eq_length_iff]
  intro c hc
  have hascii := of_decide_eq_true (List.all_eq_true.mp h c hc)
  rw [Char.utf8Size_eq_one_iff, UInt32.le_iff_toNat_le]
  exact Nat.le_of_lt_succ hascii

theorem isAscii_of_all_isDigit (h : cs.all Char.isDigit = true) : isAscii cs = true := by
  rw [isAscii, List.all_eq_true]
  intro c hc
  have hbounds : 48 ≤ c.toNat ∧ c.toNat ≤ 57 :=
    Char.isDigit_iff_toNat.mp (List.all_eq_true.mp h c hc)
  rw [decide_eq_true_eq]
  omega

theorem isAscii_append (cs ds : List Char) :
    isAscii (cs ++ ds) = (isAscii cs && isAscii ds) :=
  List.all_append

/-- A text of ASCII is cut as the list of its characters. -/
theorem slice?_of_isAscii (h : isAscii cs = true) {i j : Nat} (hle : i ≤ j) (hj : j ≤ cs.length) :
    slice? i j cs = some ((cs.drop i).take (j - i)) := by
  obtain ⟨before, rest, rfl, hi⟩ : ∃ before rest, cs = before ++ rest ∧ before.length = i :=
    ⟨cs.take i, cs.drop i, (List.take_append_drop _ _).symm, List.length_take_of_le (by omega)⟩
  obtain ⟨part, after, rfl, hpart⟩ : ∃ part after, rest = part ++ after ∧ part.length = j - i := by
    rw [List.length_append] at hj
    exact ⟨rest.take (j - i), rest.drop (j - i), (List.take_append_drop _ _).symm,
      List.length_take_of_le (by omega)⟩
  simp only [isAscii_append, Bool.and_eq_true] at h
  have hbefore := byteLength_of_isAscii h.1
  have hpart' := byteLength_of_isAscii h.2.1
  have hcut := slice?_append before part after
  rw [hbefore, hpart', hi, hpart, Nat.add_sub_cancel' hle] at hcut
  rw [hcut, ← hi, List.drop_left, hi, ← hpart, List.take_left]

/-! ## The bytes of a text -/

/-- The bytes of a text in UTF-8. -/
def bytes (cs : List Char) : List UInt8 :=
  cs.flatMap String.utf8EncodeChar

theorem length_bytes (cs : List Char) : (bytes cs).length = byteLength cs := by
  induction cs with
  | nil => rfl
  | cons c cs ih =>
      rw [byteLength, ← ih, bytes, List.flatMap_cons, List.length_append,
        String.length_utf8EncodeChar]
      rfl

theorem bytes_append (cs ds : List Char) : bytes (cs ++ ds) = bytes cs ++ bytes ds :=
  List.flatMap_append

/-- A character of ASCII is its own byte. -/
theorem utf8EncodeChar_of_lt (h : c.toNat < 128) :
    String.utf8EncodeChar c = [UInt8.ofNat c.toNat] := by
  rw [String.utf8EncodeChar.eq_1]
  exact if_pos (Nat.le_of_lt_succ h)

theorem bytes_of_isAscii (h : isAscii cs = true) :
    bytes cs = cs.map fun c => UInt8.ofNat c.toNat := by
  induction cs with
  | nil => rfl
  | cons c cs ih =>
      simp only [isAscii, List.all_cons, Bool.and_eq_true, decide_eq_true_eq] at h ih
      rw [bytes, List.flatMap_cons, utf8EncodeChar_of_lt h.1, List.map_cons, ← ih h.2]
      rfl

/-- No byte of a longer character is one of ASCII. -/
theorem toNat_eq_of_mem_utf8EncodeChar (hb : b.toNat < 128) (h : b ∈ String.utf8EncodeChar c) :
    c.toNat = b.toNat := by
  by_cases hc : c.toNat < 128
  · rw [utf8EncodeChar_of_lt hc, List.mem_singleton] at h
    rw [h, UInt8.toNat_ofNat', Nat.mod_eq_of_lt (by omega)]
  · have hlarge : ∀ b ∈ String.utf8EncodeChar c, 128 ≤ b.toNat := by
      have hfirst : ¬ c.val.toNat ≤ 127 := fun h => hc (Nat.lt_succ_of_le h)
      rw [String.utf8EncodeChar.eq_1, if_neg hfirst]
      split
      next => simp [UInt8.toNat_ofNat']; omega
      next =>
        split
        next => simp [UInt8.toNat_ofNat']; omega
        next => simp [UInt8.toNat_ofNat']; omega
    exact absurd (hlarge b h) (by omega)

theorem ofNat_toNat_inj (hc : c.toNat < 128) (hmark : mark.toNat < 128) :
    UInt8.ofNat c.toNat = UInt8.ofNat mark.toNat ↔ c = mark := by
  constructor
  · intro h
    have hnat := congrArg UInt8.toNat h
    rw [UInt8.toNat_ofNat', UInt8.toNat_ofNat', Nat.mod_eq_of_lt (by omega),
      Nat.mod_eq_of_lt (by omega)] at hnat
    exact Char.toNat_inj.mp hnat
  · rintro rfl
    rfl

/-- A byte of ASCII is among the bytes of a text if and only if its character is in the text. -/
theorem mem_bytes_iff (hmark : mark.toNat < 128) :
    UInt8.ofNat mark.toNat ∈ bytes cs ↔ mark ∈ cs := by
  have hbyte : (UInt8.ofNat mark.toNat).toNat = mark.toNat := by
    rw [UInt8.toNat_ofNat', Nat.mod_eq_of_lt (by omega)]
  rw [bytes, List.mem_flatMap]
  constructor
  · rintro ⟨c, hc, hmem⟩
    have heq := toNat_eq_of_mem_utf8EncodeChar (by omega) hmem
    rwa [Char.toNat_inj.mp (heq.trans hbyte)] at hc
  · intro h
    exact ⟨mark, h, by rw [utf8EncodeChar_of_lt hmark, List.mem_singleton]⟩

theorem findIdx?_bytes_eq_none (hmark : mark.toNat < 128) (h : mark ∉ part) :
    (bytes part).findIdx? (· == UInt8.ofNat mark.toNat) = none := by
  rw [List.findIdx?_eq_none_iff]
  intro b hb
  rw [beq_eq_false_iff_ne]
  rintro rfl
  exact h ((mem_bytes_iff hmark).mp hb)

/-- The first byte of a mark of ASCII is at the first such mark. -/
theorem findIdx?_bytes_append_cons (hmark : mark.toNat < 128) (h : mark ∉ part) :
    (bytes (part ++ mark :: rest)).findIdx? (· == UInt8.ofNat mark.toNat) =
      some (byteLength part) := by
  have hcons : bytes (mark :: rest) = UInt8.ofNat mark.toNat :: bytes rest := by
    rw [bytes, List.flatMap_cons, utf8EncodeChar_of_lt hmark]
    rfl
  rw [bytes_append, List.findIdx?_append, findIdx?_bytes_eq_none hmark h, hcons,
    List.findIdx?_cons]
  simp [length_bytes]

end Text

/-! ## Readers that cut at bytes -/

/-- A reader that cuts texts at bytes.  It has no answer, not even a fault, if a cut does not lie
between two characters. -/
abbrev Bytewise (ε α : Type) : Type :=
  ExceptT ε Option α

namespace Bytewise

variable {ε ε' α β : Type}

/-- The answer of a reader that cuts nothing. -/
def answer (x : Except ε α) : Bytewise ε α :=
  ExceptT.mk (some x)

/-- The part of a text between two bytes. -/
def cut (start stop : Nat) (cs : List Char) : Bytewise ε (List Char) :=
  ExceptT.lift (Text.slice? start stop cs)

theorem cut_eq {start stop : Nat} {cs part : List Char}
    (h : Text.slice? start stop cs = some part) :
    (cut start stop cs : Bytewise ε (List Char)) = pure part := by
  rw [cut, h]
  rfl

theorem lift_some (a : α) : (ExceptT.lift (some a) : Bytewise ε α) = pure a :=
  rfl

theorem answer_bind (x : Except ε α) (f : α → Except ε β) :
    answer (x >>= f) = answer x >>= fun a => answer (f a) := by
  cases x <;> rfl

theorem adapt_answer (x : Except ε α) (f : ε → ε') :
    (answer x).adapt f = answer (x.mapError f) := by
  cases x <;> rfl

theorem mapM_eq_answer {f : α → Bytewise ε β} {g : α → Except ε β}
    (h : ∀ a, f a = answer (g a)) (as : List α) : as.mapM f = answer (as.mapM g) := by
  induction as with
  | nil => rfl
  | cons a as ih =>
      rw [List.mapM_cons, List.mapM_cons, answer_bind, h, ih]
      simp only [answer_bind]
      rfl

theorem foldlM_eq_answer {f : β → α → Bytewise ε β} {g : β → α → Except ε β}
    (h : ∀ b a, f b a = answer (g b a)) (as : List α) (acc : β) :
    as.foldlM f acc = answer (as.foldlM g acc) := by
  induction as generalizing acc with
  | nil => rfl
  | cons a as ih =>
      rw [List.foldlM_cons, List.foldlM_cons, answer_bind, h]
      simp only [ih]

end Bytewise
end Timetable
