import Timetable.Text.Blank

/-!
# Byte positions in a text

Positions count the bytes of the text's UTF-8 form.  A `Span` is the byte range of a
fault, a `Piece` is part of a text together with the position where it begins.

`splitWhere` cuts a text at separators and keeps the positions.  `slice?` is the part of a
text between two byte positions; it is `none` when a position lies inside a character or
past the end, so no cut ever divides a character.
-/

namespace Timetable

/-- A byte range, the end not included. -/
structure Span where
  start : Nat
  stop : Nat
  deriving DecidableEq

namespace Span

/-- Shift both ends to the right. -/
def shift (s : Span) (bytes : Nat) : Span :=
  ⟨s.start + bytes, s.stop + bytes⟩

/-- The number of bytes, zero when the ends are out of order. -/
def length (s : Span) : Nat :=
  s.stop - s.start

/-- The two ends with two points between them. -/
def text (s : Span) : String :=
  toString s.start ++ ".." ++ toString s.stop

end Span

/-- Something found at a byte range of a text. -/
structure Located (α : Type) where
  value : α
  span : Span
  deriving DecidableEq

namespace Text

/-- The number of bytes of a text. -/
def byteLength : List Char → Nat
  | [] => 0
  | c :: cs => c.utf8Size + byteLength cs

@[simp] theorem byteLength_append (cs ds : List Char) :
    byteLength (cs ++ ds) = byteLength cs + byteLength ds := by
  induction cs with
  | nil => simp [byteLength]
  | cons c cs ih => simp [byteLength, ih, Nat.add_assoc]

/-- The text after its first `n` bytes. -/
def dropBytes? : Nat → List Char → Option (List Char)
  | 0, cs => some cs
  | _ + 1, [] => none
  | n + 1, c :: cs => if c.utf8Size ≤ n + 1 then dropBytes? (n + 1 - c.utf8Size) cs else none

/-- The first `n` bytes of a text. -/
def takeBytes? : Nat → List Char → Option (List Char)
  | 0, _ => some []
  | _ + 1, [] => none
  | n + 1, c :: cs =>
      if c.utf8Size ≤ n + 1 then
        (takeBytes? (n + 1 - c.utf8Size) cs).map (c :: ·)
      else
        none

/-- The part of a text from byte `start` up to byte `stop`. -/
def slice? (start stop : Nat) (cs : List Char) : Option (List Char) :=
  if start ≤ stop then (dropBytes? start cs).bind (takeBytes? (stop - start)) else none

end Text

/-- Part of a text and the byte position where it begins. -/
structure Piece where
  start : Nat
  chars : List Char
  deriving DecidableEq

namespace Piece

/-- The byte range that a piece takes up. -/
def span (p : Piece) : Span :=
  ⟨p.start, p.start + Text.byteLength p.chars⟩

/-- A piece without the blanks at its two ends. -/
def trim (p : Piece) : Piece :=
  ⟨p.start + Text.byteLength (p.chars.takeWhile Text.isBlank), Text.trim p.chars⟩

end Piece

namespace Text

/-- Cut a text that begins at byte `start` at every character that `isMark` accepts.  The
marks are dropped; there is one piece more than there are marks. -/
def splitWhere (isMark : Char → Bool) (start : Nat) : List Char → List Piece
  | [] => [⟨start, []⟩]
  | c :: cs =>
      let rest := splitWhere isMark (start + c.utf8Size) cs
      if isMark c then
        ⟨start, []⟩ :: rest
      else
        match rest with
        | [] => [⟨start, [c]⟩]
        | p :: ps => ⟨start, c :: p.chars⟩ :: ps

/-- The pieces between semicolons. -/
def segments (start : Nat) (cs : List Char) : List Piece :=
  splitWhere (· == ';') start cs

/-- The longest runs of characters that are not blank. -/
def words (cs : List Char) : List Piece :=
  (splitWhere isBlank 0 cs).filter fun p => !p.chars.isEmpty

/-- Divide a text at its first mark, which is dropped. -/
def divideAt? (isMark : Char → Bool) : List Char → Option (List Char × List Char)
  | [] => none
  | c :: cs =>
      if isMark c then
        some ([], cs)
      else
        (divideAt? isMark cs).map fun parts => (c :: parts.1, parts.2)

/-- The items between commas. -/
def items (cs : List Char) : List (List Char) :=
  cs.splitOn ','

end Text
end Timetable
