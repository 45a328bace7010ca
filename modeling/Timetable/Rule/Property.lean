import Timetable.Rule.Fault
import Timetable.Text.Letters
import Timetable.Text.Span

/-!
# Properties of a rule's text

The text of a rule is a list of properties with semicolons between them.  A property is a
name, an equals sign and a value.  Blanks around each of them are dropped, names are taken
in capitals, and segments that are blank as a whole are passed over.
-/

namespace Timetable

/-- A name and a value, with the byte range of the segment that holds them. -/
structure Property where
  name : List Char
  value : List Char
  span : Span
  deriving DecidableEq

namespace Property

/-- Read a segment without blanks at its ends as a property. -/
def ofPiece (p : Piece) : Except (Located Rule.Fault) Property :=
  match Text.divideAt? (· == '=') p.chars with
  | none => .error ⟨.notProperty (String.ofList p.chars), p.span⟩
  | some (name, value) =>
      let name := Text.upper (Text.trim name)
      let value := Text.trim value
      if name.isEmpty then
        .error ⟨.missingName, p.span⟩
      else if value.isEmpty then
        .error ⟨.missingValue (String.ofList name), p.span⟩
      else
        .ok ⟨name, value, p.span⟩

/-- The segments of a text that begins at byte `start`, less the blank ones. -/
def pieces (start : Nat) (cs : List Char) : List Piece :=
  ((Text.segments start cs).map Piece.trim).filter fun p => !p.chars.isEmpty

/-- Read all properties of a text that begins at byte `start`, or report the first segment
that is none. -/
def readAll (start : Nat) (cs : List Char) : Except (Located Rule.Fault) (List Property) :=
  (pieces start cs).mapM ofPiece

/-- The first property whose name an earlier one has; `seen` are the names before. -/
def findRepeated? (seen : List (List Char)) : List Property → Option Property
  | [] => none
  | p :: ps => if seen.contains p.name then some p else findRepeated? (p.name :: seen) ps

end Property
end Timetable
