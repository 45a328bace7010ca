/-!
# Letter case

Names and keywords are compared without regard to the case of the letters A to Z.  Every
other character, accented letters included, stands for itself.
-/

namespace Timetable
namespace Text

/-- Replace the letters a to z by their capitals. -/
def upper (cs : List Char) : List Char :=
  cs.map Char.toUpper

/-- Replace the letters A to Z by their small forms. -/
def lower (cs : List Char) : List Char :=
  cs.map Char.toLower

/-- Whether every character is one of the 128 of ASCII. -/
def isAscii (cs : List Char) : Bool :=
  cs.all fun c => c.toNat < 128

@[simp] theorem length_upper (cs : List Char) : (upper cs).length = cs.length := by
  simp [upper]

@[simp] theorem upper_append (cs ds : List Char) :
    upper (cs ++ ds) = upper cs ++ upper ds := by
  simp [upper]

end Text
end Timetable
