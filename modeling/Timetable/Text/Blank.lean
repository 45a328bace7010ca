/-!
# Blank characters

A character is blank when it has the Unicode property `White_Space`.  Blanks are what
trimming removes at the two ends of a text and what separates the words of a text.

The table lists the property's ranges.  It is wider than `Char.isWhitespace`, which knows
four of these characters only.
-/

namespace Timetable
namespace Text

/-- The ranges of the property `White_Space`, first and last code point included. -/
def blankRanges : List (Nat × Nat) :=
  [(0x09, 0x0d), (0x20, 0x20), (0x85, 0x85), (0xa0, 0xa0), (0x1680, 0x1680),
   (0x2000, 0x200a), (0x2028, 0x2029), (0x202f, 0x202f), (0x205f, 0x205f),
   (0x3000, 0x3000)]

/-- Whether a character has the property `White_Space`. -/
def isBlank (c : Char) : Bool :=
  blankRanges.any fun range => range.1 ≤ c.toNat && c.toNat ≤ range.2

/-- Drop the blanks at the front. -/
def trimLeft (cs : List Char) : List Char :=
  cs.dropWhile isBlank

/-- Drop the blanks at the back. -/
def trimRight (cs : List Char) : List Char :=
  (cs.reverse.dropWhile isBlank).reverse

/-- Drop the blanks at both ends. -/
def trim (cs : List Char) : List Char :=
  trimRight (trimLeft cs)

@[simp] theorem trim_nil : trim [] = [] := rfl

end Text
end Timetable
