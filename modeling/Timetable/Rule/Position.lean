/-!
# Positions counted from both ends

Month days, year days, ordinals of weekdays and set positions are signed numbers: a
positive one counts from the front of a sequence, a negative one from its back, so that -1
names the last member.  Zero names nothing, and neither does a number that exceeds the
length of the sequence.
-/

namespace Timetable

/-- The place of a member in a sequence, counted from 1 at the front and at the back. -/
structure Position where
  front : Nat
  back : Nat
  deriving DecidableEq

namespace Position

/-- The place of the member number `i` of a sequence of `n`, counted from 1. -/
def ofIndex (i n : Nat) : Position :=
  ⟨i, n - i + 1⟩

/-- Whether a signed number names the place. -/
def isNamedBy (p : Position) (n : Int) : Bool :=
  n = p.front || n = -(p.back : Int)

/-- The members of a list whose place is named by one of the signed numbers; all members if
there is no number. -/
def select {α : Type} (names : List Int) (members : List α) : List α :=
  if names.isEmpty then
    members
  else
    let n := members.length
    (members.zipIdx 1).filterMap fun (member, i) =>
      if names.any (ofIndex i n).isNamedBy then some member else none

theorem isNamedBy_iff {p : Position} {n : Int} :
    p.isNamedBy n = true ↔ n = p.front ∨ n = -(p.back : Int) := by
  simp [isNamedBy]

/-- Counting from the back is counting from the front less the length and one. -/
theorem isNamedBy_ofIndex_iff {i n : Nat} {name : Int} (h : i ≤ n) :
    (ofIndex i n).isNamedBy name = true ↔ name = i ∨ name = (i : Int) - n - 1 := by
  rw [isNamedBy_iff]
  simp only [ofIndex]
  omega

end Position
end Timetable
